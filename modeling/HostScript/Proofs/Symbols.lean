import HostScript.Proofs.OneFile

/-! Numbers of host members.

The host knows a function or a property by a number, and numbers are given to
descriptors: the owner, the name and the types of parameters, joined by underscores. So
two members have one number exactly when their descriptors are one text. As names may
have underscores of their own, a text does not tell where one name ends
(`Offer.descriptor_inj`); where they have none, it tells everything but whether a member
without parameters is a function or a property (`Offer.Plain.shape_inj`). -/
namespace HostScript

open List Option

variable {scripts : List Script} {d : String} {α : Type}

/-- A function or a property of the host. -/
inductive Offer where
  | function (m : Member FunctionDecl)
  | property (m : Member PropertyDecl)
  deriving DecidableEq

namespace Offer

def owner : Offer → Option String
  | .function m => m.owner
  | .property m => m.owner

def name : Offer → String
  | .function m => m.decl.name.name
  | .property m => m.decl.name.name

def isFunction : Offer → Bool
  | .function _ => true
  | .property _ => false

/-- The types of the parameters; a property has none. -/
def types : Offer → List Ty
  | .function m => m.decl.types
  | .property _ => []

def variadic : Offer → Bool
  | .function m => m.decl.variadic
  | .property _ => false

/-- The name under which the host offers it. -/
def descriptor : Offer → String
  | .function m => m.functionDescriptor
  | .property m => m.propertyDescriptor

/-- What a declared member offers to code by number. -/
def of? (m : Member MemberDecl) : Option Offer :=
  match m.decl with
  | .function f => some (.function ⟨m.owner, f⟩)
  | .property p => some (.property ⟨m.owner, p⟩)
  | .subscript _ => none

/-- What a descriptor is made of. -/
def words (o : Offer) : List String :=
  o.owner.getD "GLOBAL" :: o.name :: (o.types.map Ty.name ++ if o.variadic then ["VARIADIC"] else [])

/-- What is left of the words when they are cut at underscores. -/
def pieces (o : Offer) : List (List Char) := o.words.flatMap fun w => w.toList.splitOn '_'

end Offer

/-- Every function and property that is declared. -/
def Api.offers (api : Api) : List Offer :=
  (api.globals.map (Member.mk none) ++
    api.types.flatMap fun t => t.members.map (Member.mk (some t.name.name))).filterMap Offer.of?

/-! ### Descriptors -/

section Texts

variable [BEq α] [LawfulBEq α]

/-- Cutting words that were joined cuts each of them. -/
theorem splitOn_intercalate_flatMap (x : α) (h : ws ≠ []) :
    ([x].intercalate ws).splitOn x = ws.flatMap (List.splitOn x) := by
  induction ws with
  | nil => exact absurd rfl h
  | cons w rest ih =>
    cases rest with
    | nil => simp
    | cons w' rest =>
      rw [intercalate_cons_cons, append_assoc, singleton_append, splitOn_append_cons_self, ih (cons_ne_nil w' rest)]
      rfl

omit [BEq α] [LawfulBEq α]

theorem intercalate_concat (sep w : List α) (h : ws ≠ []) :
    sep.intercalate (ws ++ [w]) = sep.intercalate ws ++ (sep ++ w) := by
  induction ws with
  | nil => exact absurd rfl h
  | cons v rest ih =>
    cases rest with
    | nil => simp [intercalate_cons_cons]
    | cons v' rest =>
      rw [cons_append, cons_append, intercalate_cons_cons, ← cons_append,
        ih (cons_ne_nil v' rest)]
      simp

end Texts

namespace Offer

theorem toList_descriptor (o : Offer) : o.descriptor.toList = ['_'].intercalate (o.words.map String.toList) := by
  cases o with
  | property m =>
    simp [descriptor, Member.propertyDescriptor, Member.qualified, words, owner, name, types, variadic]
  | function m =>
    have hfirst : ("_".intercalate (Member.qualified m.owner m.decl.name.name :: m.decl.types.map Ty.name)).toList =
        ['_'].intercalate ((m.owner.getD "GLOBAL" :: m.decl.name.name :: m.decl.types.map Ty.name).map String.toList) := by
      simp [Member.qualified]
    show (_ ++ if m.decl.variadic then "_VARIADIC" else "").toList =
      ['_'].intercalate ((m.owner.getD "GLOBAL" :: m.decl.name.name :: m.decl.types.map Ty.name ++
        if m.decl.variadic then ["VARIADIC"] else []).map String.toList)
    rw [String.toList_append, hfirst, map_append]
    cases m.decl.variadic with
    | false => simp
    | true => exact (intercalate_concat ['_'] "VARIADIC".toList (by simp)).symm

/-- Members have one descriptor when their words, cut at underscores, are the same. -/
theorem descriptor_inj (m n : Offer) : m.descriptor = n.descriptor ↔ m.pieces = n.pieces := by
  have hpieces : ∀ o : Offer, o.pieces = o.descriptor.toList.splitOn '_' := fun o => by
    rw [toList_descriptor, splitOn_intercalate_flatMap _ (by simp [words]), pieces, flatMap_map]
  rw [hpieces, hpieces, ← String.toList_inj]
  constructor
  · exact congrArg _
  · intro h
    have hjoin := congrArg (List.intercalate ['_']) h
    rwa [intercalate_splitOn, intercalate_splitOn] at hjoin

end Offer

/-! ### Types as they are spelled -/

theorem Primitive.name_of_keyword (h : ofKeyword? word = some p) :
    (Ty.prim p).name = word ∧ word ∈ Lexeme.keywords := by
  unfold ofKeyword? at h
  split at h
  all_goals first
    | cases h
      exact ⟨rfl, by decide⟩
    | cases h

/-- A type that a script names has no other's name. -/
theorem Ty.Spelled.name_inj {t u : Ty} (ht : t.Spelled) (hu : u.Spelled) (h : t.name = u.name) : t = u := by
  cases t with
  | prim p =>
    obtain ⟨word, hword⟩ := ht
    obtain ⟨hp, hkey⟩ := Primitive.name_of_keyword hword
    cases u with
    | prim q =>
      obtain ⟨word', hword'⟩ := hu
      rw [hp, (Primitive.name_of_keyword hword').1] at h
      rw [h, hword'] at hword
      cases hword
      rfl
    | object n =>
      rw [hp] at h
      subst h
      exact absurd hkey hu
  | object n =>
    cases u with
    | prim q =>
      obtain ⟨word, hword⟩ := hu
      obtain ⟨hq, hkey⟩ := Primitive.name_of_keyword hword
      rw [hq] at h
      subst h
      exact absurd hkey ht
    | object n' => exact congrArg _ h

theorem Ty.Spelled.map_name_inj {ts us : List Ty} (ht : ∀ t ∈ ts, t.Spelled) (hu : ∀ u ∈ us, u.Spelled)
    (h : ts.map Ty.name = us.map Ty.name) : ts = us := by
  induction ts generalizing us with
  | nil => exact (map_eq_nil_iff.1 h.symm).symm
  | cons t rest ih =>
    cases us with
    | nil => cases h
    | cons u more =>
      obtain ⟨hhead, htail⟩ := List.cons.inj h
      obtain ⟨ht, hrest⟩ := forall_mem_cons.1 ht
      obtain ⟨hu, hmore⟩ := forall_mem_cons.1 hu
      rw [ht.name_inj hu hhead, ih hrest hmore htail]

theorem Script.spelled_of_parse (h : Script.parse n text = .ok script) :
    ∀ s ∈ script, s.Spelled := fun s hs => (sound_of_parse h s hs).2

/-! ### Members that can be told apart -/

namespace Offer

/-- Everything that tells members apart but whether one is a function or a property. -/
def shape (o : Offer) : Option String × String × List Ty × Bool := (o.owner, o.name, o.types, o.variadic)

/-- No word of the descriptor has an underscore or can be taken for one that descriptors put in. -/
structure Plain (o : Offer) : Prop where
  whole : ∀ w ∈ o.words, '_' ∉ w.toList
  owned : o.owner ≠ some "GLOBAL"
  ended : Ty.object "VARIADIC" ∉ o.types

instance (o : Offer) : Decidable o.Plain :=
  decidable_of_iff ((∀ w ∈ o.words, '_' ∉ w.toList) ∧ o.owner ≠ some "GLOBAL" ∧ Ty.object "VARIADIC" ∉ o.types)
    ⟨fun ⟨h₁, h₂, h₃⟩ => ⟨h₁, h₂, h₃⟩, fun ⟨h₁, h₂, h₃⟩ => ⟨h₁, h₂, h₃⟩⟩

/-- The types of the parameters are those that a script can name. -/
def Spelled (o : Offer) : Prop := ∀ t ∈ o.types, t.Spelled

variable {m n : Offer}

theorem pieces_eq_of_shape (h : m.shape = n.shape) : m.pieces = n.pieces := by
  unfold shape at h
  unfold pieces words
  simp only [Prod.mk.injEq] at h
  rw [h.1, h.2.1, h.2.2.1, h.2.2.2]

theorem Plain.words_inj (hm : m.Plain) (hn : n.Plain) (h : m.pieces = n.pieces) : m.words = n.words := by
  have hwhole : ∀ o : Offer, o.Plain → o.pieces = o.words.map String.toList := fun o ho => by
    rw [map_eq_flatMap]
    exact flatMap_congr fun w hw => splitOn_eq_singleton (ho.whole w hw)
  rw [hwhole m hm, hwhole n hn] at h
  exact map_injective_iff.2 (fun _ _ => String.toList_inj.1) h

theorem Plain.variadic_notMem (hm : m.Plain) (hs : m.Spelled) : "VARIADIC" ∉ m.types.map Ty.name := by
  intro hmem
  obtain ⟨t, ht, hname⟩ := mem_map.1 hmem
  have heq : t = .object "VARIADIC" := (hs t ht).name_inj (by unfold Ty.Spelled; decide) hname
  exact hm.ended (heq ▸ ht)

/-- The ends of two lists of words are the same if the types are and none has another ending. -/
theorem ends_inj {v w : Bool} (ht : "VARIADIC" ∉ ts) (hu : "VARIADIC" ∉ us)
    (h : (ts ++ if v then ["VARIADIC"] else []) = us ++ if w then ["VARIADIC"] else []) : ts = us ∧ v = w := by
  cases v <;> cases w
  · exact ⟨by simpa using h, rfl⟩
  · obtain rfl : ts = us ++ ["VARIADIC"] := by simpa using h
    exact absurd (by simp) ht
  · obtain rfl : ts ++ ["VARIADIC"] = us := by simpa using h
    exact absurd (by simp) hu
  · exact ⟨by simpa using h, rfl⟩

/-- Plain members that have one descriptor differ at most in being a function or a property. -/
theorem Plain.shape_inj (hm : m.Plain) (hn : n.Plain) (hsm : m.Spelled) (hsn : n.Spelled) (h : m.pieces = n.pieces) :
    m.shape = n.shape := by
  have hwords := hm.words_inj hn h
  obtain ⟨howner, htail⟩ := List.cons.inj hwords
  obtain ⟨hname, hends⟩ := List.cons.inj htail
  obtain ⟨htypes, hvariadic⟩ := ends_inj (hm.variadic_notMem hsm) (hn.variadic_notMem hsn) hends
  have howner : m.owner = n.owner := by
    have h₁ := hm.owned
    have h₂ := hn.owned
    cases hmo : m.owner <;> cases hno : n.owner <;> simp_all
  unfold shape
  rw [howner, hname, Ty.Spelled.map_name_inj hsm hsn htypes, hvariadic]

end Offer

/-! ### Numbers -/

/-- What some scripts offer is what each of them does. -/
theorem Api.mem_offers : o ∈ (ofScripts scripts).offers ↔ ∃ script ∈ scripts, o ∈ (ofScripts [script]).offers := by
  constructor
  · intro h
    obtain ⟨m, hm, ho⟩ := mem_filterMap.1 h
    obtain hm | hm := mem_append.1 hm
    · obtain ⟨decl, hdecl, rfl⟩ := mem_map.1 hm
      obtain ⟨script, hscript, hdecl⟩ := mem_flatMap.1 hdecl
      refine ⟨script, hscript, mem_filterMap.2 ⟨_, mem_append_left _ (mem_map_of_mem ?_), ho⟩⟩
      simpa [ofScripts] using hdecl
    · obtain ⟨t, ht, hm⟩ := mem_flatMap.1 hm
      obtain ⟨script, hscript, ht⟩ := mem_flatMap.1 ht
      refine ⟨script, hscript, mem_filterMap.2 ⟨_, mem_append_right _ (mem_flatMap.2 ⟨t, ?_, hm⟩), ho⟩⟩
      simpa [ofScripts] using ht
  · rintro ⟨script, hscript, h⟩
    obtain ⟨m, hm, ho⟩ := mem_filterMap.1 h
    refine mem_filterMap.2 ⟨m, ?_, ho⟩
    obtain hm | hm := mem_append.1 hm
    · obtain ⟨decl, hdecl, rfl⟩ := mem_map.1 hm
      refine mem_append_left _ (mem_map_of_mem (mem_flatMap.2 ⟨script, hscript, ?_⟩))
      simpa [ofScripts] using hdecl
    · obtain ⟨t, ht, hm⟩ := mem_flatMap.1 hm
      refine mem_append_right _ (mem_flatMap.2 ⟨t, mem_flatMap.2 ⟨script, hscript, ?_⟩, hm⟩)
      simpa [ofScripts] using ht

theorem Session.descriptors_eq (script : Script) :
    descriptors script = (Api.ofScripts [script]).offers.map Offer.descriptor := by
  unfold Api.offers Api.ofScripts
  rw [map_filterMap, flatMap_singleton, flatMap_singleton]
  refine filterMap_congr fun m _ => ?_
  unfold Offer.of?
  cases m.decl <;> rfl

theorem Api.spelled_offer (h : ∀ script ∈ scripts, ∀ s ∈ script, s.Spelled) (ho : o ∈ (ofScripts scripts).offers) :
    o.Spelled := by
  -- only a function has parameters, and it is a member of a statement
  have hmember : ∀ {owner : Option String} {decl : MemberDecl}, decl.Spelled → Offer.of? ⟨owner, decl⟩ = some o →
      o.Spelled := by
    intro owner decl hdecl ho
    cases decl <;> cases ho
    · exact hdecl
    · exact nofun
  obtain ⟨m, hm, ho⟩ := mem_filterMap.1 ho
  obtain hm | hm := mem_append.1 hm
  · obtain ⟨decl, hdecl, rfl⟩ := mem_map.1 hm
    obtain ⟨script, hscript, hdecl⟩ := mem_flatMap.1 hdecl
    obtain ⟨statement, hstatement, hdecl⟩ := mem_flatMap.1 hdecl
    have hspelled := h script hscript statement hstatement
    split at hdecl
    · exact hmember (hspelled decl hdecl) ho
    · cases hdecl
  · obtain ⟨t, ht, hm⟩ := mem_flatMap.1 hm
    obtain ⟨decl, hdecl, rfl⟩ := mem_map.1 hm
    obtain ⟨script, hscript, ht⟩ := mem_flatMap.1 ht
    obtain ⟨statement, hstatement, ht⟩ := mem_filterMap.1 ht
    have hspelled := h script hscript statement hstatement
    split at ht
    · cases ht
      exact hmember (hspelled decl hdecl) ho
    · cases ht

theorem mem_loop_of [BEq α] [LawfulBEq α] {a x : α} {as acc : List α} (h : x ∈ acc ∨ x = a ∨ x ∈ as) :
    x ∈ List.eraseRepsBy.loop (· == ·) a as acc := by
  induction as generalizing a acc with
  | nil => simpa [List.eraseRepsBy.loop] using h
  | cons b rest ih =>
    unfold List.eraseRepsBy.loop
    split
    · have heq := eq_of_beq ‹(a == b) = true›
      exact ih (by grind)
    · exact ih (by grind)

theorem mem_eraseReps [BEq α] [LawfulBEq α] {x : α} {xs : List α} : x ∈ xs.eraseReps ↔ x ∈ xs := by
  refine ⟨Build.mem_of_mem_eraseReps, fun h => ?_⟩
  cases xs with
  | nil => exact h
  | cons a rest => exact mem_loop_of (.inr (mem_cons.1 h))

/-- Names in a list have numbers from one on, and the number leads back to the name. -/
theorem find_zipIdx {names : List String} (h : d ∈ names) :
    ∃ n, Fragment.Symbols.find? (names.zipIdx 1) d = some n ∧ 1 ≤ n ∧ n ≤ names.length ∧ names[n - 1]? = some d := by
  obtain ⟨i, hi⟩ := mem_iff_getElem?.1 h
  have hsome : ((names.zipIdx 1).lookup d).isSome :=
    lookup_isSome_iff.2 ⟨(d, i + 1), mem_zipIdx_iff_le_and_getElem?_sub.2 ⟨by omega, hi⟩, beq_self_eq_true d⟩
  obtain ⟨n, hn⟩ := isSome_iff_exists.1 hsome
  obtain ⟨before, after, hsplit, -⟩ := lookup_eq_some_iff.1 hn
  have hmem : (d, n) ∈ names.zipIdx 1 := by simp [hsplit]
  obtain ⟨hle, hget⟩ := mem_zipIdx_iff_le_and_getElem?_sub.1 hmem
  have hlt := (List.getElem?_eq_some_iff.1 hget).1
  exact ⟨n, hn, hle, by omega, hget⟩

namespace Session

variable {s : Session} {i j : Nat} {m : Offer}

/-- Every function and property that some file can see has a number, which is that of its descriptor. -/
theorem find_symbol (hm : m ∈ (s.api i).offers) :
    ∃ a, s.symbols.find? m.descriptor = some a ∧ 1 ≤ a ∧ a ≤ s.symbols.length ∧
      s.symbols[a - 1]? = some (m.descriptor, a) := by
  obtain ⟨script, hscript, hm⟩ := Api.mem_offers.1 hm
  obtain ⟨j, -, hj⟩ := mem_filterMap.1 hscript
  obtain ⟨u, hu, hus⟩ := bind_eq_some_iff.1 hj
  have hall : m.descriptor ∈ (s.units.toList.filterMap (·.script)).flatMap descriptors := by
    refine mem_flatMap.2 ⟨script, mem_filterMap.2 ⟨u, ?_, hus⟩, ?_⟩
    · exact Array.mem_toList_iff.2 (Array.mem_of_getElem? hu)
    · rw [descriptors_eq]
      exact mem_map_of_mem hm
  have hsorted : m.descriptor ∈ ((s.units.toList.filterMap (·.script)).flatMap descriptors).mergeSort fun a b => a ≤ b :=
    mem_mergeSort.2 hall
  obtain ⟨a, ha, hone, hlen, hget⟩ := find_zipIdx (mem_eraseReps.2 hsorted)
  refine ⟨a, ha, hone, by simpa [symbols] using hlen, ?_⟩
  unfold symbols
  rw [List.getElem?_zipIdx, hget]
  simp
  omega

theorem Orderly.spelled (hs : Orderly s) (hm : m ∈ (s.api i).offers) : m.Spelled := by
  refine Api.spelled_offer (fun script hscript => ?_) hm
  obtain ⟨j, -, hj⟩ := mem_filterMap.1 hscript
  obtain ⟨u, hu, hus⟩ := bind_eq_some_iff.1 hj
  obtain ⟨k, text, hparse⟩ := hs.read j u hu script hus
  exact Script.spelled_of_parse hparse

end Session

namespace Build

open Session

theorem symbols_run (disk : Disk) (debug : Bool) (paths : List String) :
    (run disk debug paths).symbols = (session disk debug paths).symbols := by
  unfold run session
  generalize compileAll paths (.new disk debug) = r
  obtain ⟨⟨refused, roots⟩, s⟩ := r
  dsimp only
  split
  · split <;> rfl
  · rfl

/-- All functions and properties have numbers, which are words if there are not too many, and two of them have
the same exactly when their descriptors are cut into the same pieces. Of plain ones these are the members that differ at most in
being a function or a property. -/
theorem symbols_identify_members (disk : Disk) (debug : Bool) (paths : List String) {i j : Nat} {m n : Offer}
    (hm : m ∈ ((session disk debug paths).api i).offers) (hn : n ∈ ((session disk debug paths).api j).offers) :
    ∃ a b, (run disk debug paths).symbols.find? m.descriptor = some a ∧
      (run disk debug paths).symbols.find? n.descriptor = some b ∧
      (1 ≤ a ∧ a ≤ (run disk debug paths).symbols.length) ∧ (1 ≤ b ∧ b ≤ (run disk debug paths).symbols.length) ∧
      ((run disk debug paths).symbols.length < 256 ^ 2 → a % 256 ^ 2 = a ∧ b % 256 ^ 2 = b) ∧
      (a = b ↔ m.pieces = n.pieces) ∧ (m.Plain → n.Plain → (a = b ↔ m.shape = n.shape)) := by
  have horderly := orderly_session disk debug paths
  rw [symbols_run]
  obtain ⟨a, ha, hone, hle, hgeta⟩ := find_symbol hm
  obtain ⟨b, hb, hone', hle', hgetb⟩ := find_symbol hn
  have hpieces : a = b ↔ m.pieces = n.pieces := by
    rw [← Offer.descriptor_inj]
    constructor
    · rintro rfl
      rw [hgeta] at hgetb
      exact (Prod.mk.inj (Option.some.inj hgetb)).1
    · intro hd
      rw [hd, hb] at ha
      cases ha
      rfl
  refine ⟨a, b, ha, hb, ⟨hone, hle⟩, ⟨hone', hle'⟩, fun hroom => ?_, hpieces, fun hpm hpn => hpieces.trans ⟨fun h => ?_, ?_⟩⟩
  · exact ⟨Nat.mod_eq_of_lt (by omega), Nat.mod_eq_of_lt (by omega)⟩
  · exact hpm.shape_inj hpn (horderly.spelled hm) (horderly.spelled hn) h
  · exact Offer.pieces_eq_of_shape

/-- Members of one name that differ in owner, parameters or in taking further arguments. -/
def overloads : String :=
  "#type Node \x7b int32 add; void add(Node n); void add(Node n, int32 k, ...); \x7d #global \x7b void add(Node n); \x7d"

theorem symbols_identify_members_overloads :
    (∀ m ∈ ((session (oneFile overloads) false ["/a"]).api 0).offers, m.Plain) ∧
      (((session (oneFile overloads) false ["/a"]).api 0).offers.map Offer.shape).Nodup ∧
      ∀ m ∈ ((session (oneFile overloads) false ["/a"]).api 0).offers,
        ∀ n ∈ ((session (oneFile overloads) false ["/a"]).api 0).offers, m.shape ≠ n.shape →
          (run (oneFile overloads) false ["/a"]).symbols.find? m.descriptor ≠
            (run (oneFile overloads) false ["/a"]).symbols.find? n.descriptor := by
  have hplain : ∀ m ∈ ((session (oneFile overloads) false ["/a"]).api 0).offers, m.Plain := by
    decide +kernel
  refine ⟨hplain, by decide +kernel, fun m hm n hn hne => ?_⟩
  obtain ⟨a, b, ha, hb, -, -, -, -, hshape⟩ := symbols_identify_members (oneFile overloads) false ["/a"] hm hn
  rw [ha, hb]
  exact fun h => hne ((hshape (hplain m hm) (hplain n hn)).1 (Option.some.inj h))

/-- A script in which no problem is found, with two different members that have one number. -/
def Confuses (text descriptor : String) : Prop :=
  run (oneFile text) false ["/a"] = ⟨[], [(descriptor, 1)], [(rootFile, #[0, 0, 0, 0])]⟩ ∧
    (((session (oneFile text) false ["/a"]).api 0).offers.map fun o => (o.isFunction, o.shape)).Nodup ∧
      ((session (oneFile text) false ["/a"]).api 0).offers.map Offer.descriptor = [descriptor, descriptor]

/-- One script for each way in which descriptors coincide. -/
theorem confusing_scripts :
    Confuses "#global \x7b int8 f; void f(); \x7d" "GLOBAL_f" ∧
      Confuses "#type A_b \x7b void c(); \x7d #type A \x7b void b_c(); \x7d" "A_b_c" ∧
      Confuses "#global \x7b void k(int8 n); void k_int8(); \x7d" "GLOBAL_k_int8" ∧
      Confuses "#type GLOBAL \x7b void g(); \x7d #global \x7b void g(); \x7d" "GLOBAL_g" ∧
      Confuses "#type VARIADIC \x7b \x7d #global \x7b void h(int8 n, ...); void h(int8 n, VARIADIC v); \x7d"
        "GLOBAL_h_int8_VARIADIC" := by
  refine ⟨⟨run_sorted ["GLOBAL_f", "GLOBAL_f"] ?_ ?_, ?_, ?_⟩, ⟨run_sorted ["A_b_c", "A_b_c"] ?_ ?_, ?_, ?_⟩,
    ⟨run_sorted ["GLOBAL_k_int8", "GLOBAL_k_int8"] ?_ ?_, ?_, ?_⟩, ⟨run_sorted ["GLOBAL_g", "GLOBAL_g"] ?_ ?_, ?_, ?_⟩,
    ⟨run_sorted ["GLOBAL_h_int8_VARIADIC", "GLOBAL_h_int8_VARIADIC"] ?_ ?_, ?_, ?_⟩⟩ <;> decide +kernel

end Build

end HostScript
