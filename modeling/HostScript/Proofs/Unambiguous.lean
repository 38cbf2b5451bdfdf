import HostScript.Proofs.Declared

/-! Declarations that can be told apart.

A declaration is checked where it is made, against what its own file sees. So two
declarations that one file sees can still clash when neither file sees the other, or when
two types that do not inherit from each other have a common heir: where they meet, nothing
is checked. `unambiguous_iff` says that in a file without problems these are the only
clashes. -/
namespace HostScript

open List Option

variable {m n : MemberDecl} {name : String}

section Single

variable {α κ : Type} {span : α → Span} {xs : List α}

/-- At most one thing is left when all that are left stand at one place. -/
theorem length_le_one_iff (h : xs.Pairwise fun a b => span a ≠ span b) :
    xs.length ≤ 1 ↔ ∀ a ∈ xs, ∀ b ∈ xs, span a = span b := by
  constructor
  · intro hlength a ha b hb
    match xs, hlength with
    | [x], _ => rw [mem_singleton.1 ha, mem_singleton.1 hb]
  · intro hsame
    match xs with
    | [] => exact Nat.zero_le _
    | [_] => exact Nat.le_refl _
    | x :: y :: rest =>
      exact absurd (hsame x (by simp) y (by simp)) ((pairwise_cons.1 h).1 y (by simp))

/-- Things that a key tells apart. -/
theorem filter_le_one_iff (h : xs.Pairwise fun a b => span a ≠ span b) {key : α → κ} {keyed : κ → α → Bool}
    (hkeyed : ∀ k a, keyed k a = true ↔ key a = k) :
    (∀ k, (xs.filter (keyed k)).length ≤ 1) ↔ ∀ a ∈ xs, ∀ b ∈ xs, key a = key b → span a = span b := by
  constructor
  · intro hone a ha b hb hab
    exact (length_le_one_iff (h.filter _)).1 (hone (key b)) a (mem_filter.2 ⟨ha, (hkeyed _ _).2 hab⟩) b
      (mem_filter.2 ⟨hb, (hkeyed _ _).2 rfl⟩)
  · intro hsame k
    refine (length_le_one_iff (h.filter _)).2 fun a ha b hb => ?_
    obtain ⟨ha, hka⟩ := mem_filter.1 ha
    obtain ⟨hb, hkb⟩ := mem_filter.1 hb
    exact hsame a ha b hb (((hkeyed _ _).1 hka).trans ((hkeyed _ _).1 hkb).symm)

end Single

namespace Api

/-- Each name and each shape of a member is declared once. -/
structure Unambiguous (api : Api) : Prop where
  types : ∀ name, (api.typesNamed name).length ≤ 1
  globals : ∀ name, (api.propertiesNamed none name).length ≤ 1
  properties : ∀ t ∈ api.types, ∀ name, (api.propertiesNamed (some t.name.name) name).length ≤ 1
  functions : ∀ t ∈ api.types, ∀ name types variadic,
    (api.functionsOf (some t.name.name) name types variadic).length ≤ 1
  subscripts : ∀ t ∈ api.types, ∀ index, (api.subscriptsOf t.name.name index).length ≤ 1

variable {api : Api} {owner : Option String}

theorem typesNamed_le_one_iff (h : api.Placed) : (∀ name, (api.typesNamed name).length ≤ 1) ↔
    ∀ t ∈ api.types, ∀ u ∈ api.types, t.name.name = u.name.name → t.span = u.span :=
  filter_le_one_iff h.types fun _ _ => decide_eq_true_iff

/-- The members of one kind that a key tells apart. -/
theorem part_le_one_iff (h : api.Placed) {α κ : Type} {part : MemberDecl → Option α} {span : α → Span}
    (hspan : ∀ m a, part m = some a → m.span = span a) {key : α → κ} {keyed : κ → Member α → Bool}
    (hkeyed : ∀ k m, keyed k m = true ↔ key m.decl = k) :
    (∀ k, (((api.members owner).filterMap (Member.part? part)).filter (keyed k)).length ≤ 1) ↔
      ∀ m ∈ api.members owner, ∀ n ∈ api.members owner, ∀ a b, part m.decl = some a → part n.decl = some b →
        key a = key b → m.decl.span = n.decl.span := by
  have hapart : ((api.members owner).filterMap (Member.part? part)).Pairwise fun a b => span a.decl ≠ span b.decl := by
    refine pairwise_filterMap.2 ((h.pairwise_members owner).imp fun {m n} hne x hx y hy => ?_)
    obtain ⟨a, ha, rfl⟩ := map_eq_some_iff.1 hx
    obtain ⟨b, hb, rfl⟩ := map_eq_some_iff.1 hy
    rwa [hspan _ _ ha, hspan _ _ hb] at hne
  rw [filter_le_one_iff hapart hkeyed]
  constructor
  · intro hsame m hm n hn a b ha hb hkey
    rw [hspan _ _ ha, hspan _ _ hb]
    exact hsame _ (mem_part hm ha) _ (mem_part hn hb) hkey
  · intro hsame x hx y hy hkey
    obtain ⟨m, hm, hx⟩ := mem_filterMap.1 hx
    obtain ⟨n, hn, hy⟩ := mem_filterMap.1 hy
    obtain ⟨a, ha, rfl⟩ := map_eq_some_iff.1 hx
    obtain ⟨b, hb, rfl⟩ := map_eq_some_iff.1 hy
    rw [← hspan _ _ ha, ← hspan _ _ hb]
    exact hsame m hm n hn a b ha hb hkey

theorem function_span (m : MemberDecl) (f : FunctionDecl) (h : m.function? = some f) : m.span = f.span := by
  cases m <;> cases h
  rfl

theorem property_span (m : MemberDecl) (p : PropertyDecl) (h : m.property? = some p) : m.span = p.span := by
  cases m <;> cases h
  rfl

theorem subscript_span (m : MemberDecl) (d : SubscriptDecl) (h : m.subscript? = some d) : m.span = d.span := by
  cases m <;> cases h
  rfl

theorem propertiesNamed_le_one_iff (h : api.Placed) : (∀ name, (api.propertiesNamed owner name).length ≤ 1) ↔
    ∀ m ∈ api.members owner, ∀ n ∈ api.members owner, ∀ p q, m.decl.property? = some p → n.decl.property? = some q →
      p.name.name = q.name.name → m.decl.span = n.decl.span :=
  part_le_one_iff h property_span fun _ _ => decide_eq_true_iff

theorem subscriptsOf_le_one_iff (h : api.Placed) {owner : String} :
    (∀ index, (api.subscriptsOf owner index).length ≤ 1) ↔
    ∀ m ∈ api.members (some owner), ∀ n ∈ api.members (some owner), ∀ d e, m.decl.subscript? = some d →
      n.decl.subscript? = some e → d.index.type = e.index.type → m.decl.span = n.decl.span :=
  part_le_one_iff h subscript_span fun _ _ => decide_eq_true_iff

theorem functionsOf_le_one_iff (h : api.Placed) :
    (∀ name types variadic, (api.functionsOf owner name types variadic).length ≤ 1) ↔
      ∀ m ∈ api.members owner, ∀ n ∈ api.members owner, ∀ f g, m.decl.function? = some f → n.decl.function? = some g →
        (f.name.name, f.types, f.variadic) = (g.name.name, g.types, g.variadic) → m.decl.span = n.decl.span := by
  have hkeyed : ∀ (k : String × List Ty × Bool) (m : Member FunctionDecl),
      (m.decl.name.name = k.1 && m.decl.variadic = k.2.2 && m.decl.types = k.2.1 : Bool) = true ↔
        (m.decl.name.name, m.decl.types, m.decl.variadic) = k := by
    rintro ⟨name, types, variadic⟩ m
    simp only [Bool.and_eq_true, decide_eq_true_eq, Prod.mk.injEq]
    constructor
    · exact fun ⟨⟨hn, hv⟩, ht⟩ => ⟨hn, ht, hv⟩
    · exact fun ⟨hn, ht, hv⟩ => ⟨⟨hn, hv⟩, ht⟩
  have hone := @part_le_one_iff api owner h _ _ _ _ function_span (fun f => (f.name.name, f.types, f.variadic)) _ hkeyed
  exact ⟨fun h => hone.1 fun k => h k.1 k.2.1 k.2.2, fun h name types variadic => hone.2 h (name, types, variadic)⟩

theorem clashes_iff : m.Clashes n ↔ (∃ p q, m.property? = some p ∧ n.property? = some q ∧ p.name.name = q.name.name) ∨
    (∃ f g, m.function? = some f ∧ n.function? = some g ∧
      (f.name.name, f.types, f.variadic) = (g.name.name, g.types, g.variadic)) ∨
    ∃ d e, m.subscript? = some d ∧ n.subscript? = some e ∧ d.index.type = e.index.type := by
  cases m <;> cases n <;>
    simp [MemberDecl.Clashes, MemberDecl.property?, MemberDecl.function?, MemberDecl.subscript?, and_comm]

theorem clashes_symm (h : m.Clashes n) : n.Clashes m := by
  rw [clashes_iff] at h ⊢
  obtain ⟨p, q, hp, hq, heq⟩ | ⟨f, g, hf, hg, heq⟩ | ⟨d, e, hd, he, heq⟩ := h
  · exact .inl ⟨q, p, hq, hp, heq.symm⟩
  · exact .inr (.inl ⟨g, f, hg, hf, heq.symm⟩)
  · exact .inr (.inr ⟨e, d, he, hd, heq.symm⟩)

/-- No two members of an owner clash. -/
def Single (api : Api) (owner : String) : Prop := ∀ m ∈ api.members (some owner), ∀ n ∈ api.members (some owner),
  m.decl.Clashes n.decl → m.decl.span = n.decl.span

theorem single_iff (h : api.Placed) {owner : String} : api.Single owner ↔
    (∀ name, (api.propertiesNamed (some owner) name).length ≤ 1) ∧
    (∀ name types variadic, (api.functionsOf (some owner) name types variadic).length ≤ 1) ∧
    ∀ index, (api.subscriptsOf owner index).length ≤ 1 := by
  rw [propertiesNamed_le_one_iff h, functionsOf_le_one_iff h, subscriptsOf_le_one_iff h]
  unfold Single
  simp only [clashes_iff]
  constructor
  · intro hall
    exact ⟨fun m hm n hn p q hp hq hpq => hall m hm n hn (.inl ⟨p, q, hp, hq, hpq⟩),
      fun m hm n hn f g hf hg hfg => hall m hm n hn (.inr (.inl ⟨f, g, hf, hg, hfg⟩)),
      fun m hm n hn d e hd he hde => hall m hm n hn (.inr (.inr ⟨d, e, hd, he, hde⟩))⟩
  · rintro ⟨hproperties, hfunctions, hsubscripts⟩ m hm n hn (⟨p, q, hp, hq, hpq⟩ | ⟨f, g, hf, hg, hfg⟩ | ⟨d, e, hd, he, hde⟩)
    · exact hproperties m hm n hn p q hp hq hpq
    · exact hfunctions m hm n hn f g hf hg hfg
    · exact hsubscripts m hm n hn d e hd he hde

/-- What makes declarations unambiguous, said of members and places. -/
theorem unambiguous_iff_single (h : api.Placed) : api.Unambiguous ↔
    (∀ t ∈ api.types, ∀ u ∈ api.types, t.name.name = u.name.name → t.span = u.span) ∧
    (∀ m ∈ api.globals, ∀ n ∈ api.globals, ∀ p q, m.property? = some p → n.property? = some q →
      p.name.name = q.name.name → m.span = n.span) ∧ ∀ t ∈ api.types, api.Single t.name.name := by
  have hglobals := @propertiesNamed_le_one_iff api none h
  simp only [members, List.mem_map, forall_exists_index, and_imp, forall_apply_eq_imp_iff₂] at hglobals
  rw [← typesNamed_le_one_iff h, ← hglobals]
  simp only [single_iff h]
  constructor
  · rintro ⟨htypes, hglobals, hp, hf, hs⟩
    exact ⟨htypes, hglobals, fun t ht => ⟨hp t ht, hf t ht, hs t ht⟩⟩
  · rintro ⟨htypes, hglobals, h⟩
    exact ⟨htypes, hglobals, fun t ht => (h t ht).1, fun t ht => (h t ht).2.1, fun t ht => (h t ht).2.2⟩

end Api

namespace Session

variable {s : Session} {i f : Nat}

/-- What nothing checks: files that do not see each other declare no type and no global property of one name,
and no members of types clash that do not inherit from each other and have a common heir. -/
structure Untangled (s : Session) (i : Nat) : Prop where
  types : ∀ f g, s.Reaches i f → s.Reaches i g → ¬ s.Reaches f g → ¬ s.Reaches g f →
    ∀ t ∈ s.typesOf f, ∀ u ∈ s.typesOf g, t.name.name ≠ u.name.name
  globals : ∀ f g, s.Reaches i f → s.Reaches i g → ¬ s.Reaches f g → ¬ s.Reaches g f →
    ∀ m ∈ s.globalsOf f, ∀ n ∈ s.globalsOf g, ∀ p q, m.property? = some p → n.property? = some q →
      p.name.name ≠ q.name.name
  members : ∀ t ∈ (s.api i).types, ∀ u ∈ (s.api i).lineage t.name.name, ∀ v ∈ (s.api i).lineage t.name.name,
    u ∉ (s.api i).lineage v.name.name → v ∉ (s.api i).lineage u.name.name →
    ∀ m ∈ u.members, ∀ n ∈ v.members, ¬ m.Clashes n

/-- All files that a file reaches were built. -/
def AllBuilt (s : Session) (i : Nat) : Prop := ∀ f, s.Reaches i f → Built s f

theorem Built.all (h : Built s i) : s.AllBuilt i := by
  intro f hf
  induction hf with
  | refl => exact h
  | tail _ hk ih => exact ih.imports _ hk

/-! ### Types -/

theorem names_of_untangled (hb : s.AllBuilt i) (h : s.Untangled i) :
    ∀ t ∈ (s.api i).types, ∀ u ∈ (s.api i).types, t.name.name = u.name.name → t.span = u.span := by
  intro t ht u hu hname
  obtain ⟨f, hf, htf⟩ := mem_types_api.1 ht
  obtain ⟨g, hg, hug⟩ := mem_types_api.1 hu
  by_cases hfg : s.Reaches f g
  · exact (((hb f hf).checked.1 t htf).name u (mem_types_api.2 ⟨g, hfg, hug⟩) hname.symm).symm
  · by_cases hgf : s.Reaches g f
    · exact ((hb g hg).checked.1 u hug).name t (mem_types_api.2 ⟨f, hgf, htf⟩) hname
    · exact absurd hname (h.types f g hf hg hfg hgf t htf u hug)

theorem globals_of_untangled (hb : s.AllBuilt i) (h : s.Untangled i) :
    ∀ m ∈ (s.api i).globals, ∀ n ∈ (s.api i).globals, ∀ p q, m.property? = some p → n.property? = some q →
      p.name.name = q.name.name → m.span = n.span := by
  -- a property clashes with none that its own file sees
  have hseen : ∀ f, s.Reaches i f → ∀ m ∈ s.globalsOf f, ∀ n ∈ (s.api f).globals, ∀ p q, m.property? = some p →
      n.property? = some q → p.name.name = q.name.name → n.span = m.span := by
    intro f hf m hm n hn p q hp hq hname
    have hclash : n.Clashes m := Api.clashes_iff.2 (.inl ⟨q, p, hq, hp, hname.symm⟩)
    have hpasses := (hb f hf).checked.2 m hm
    cases m <;> cases hp
    exact Api.alone_property hpasses ⟨none, n⟩ (mem_map_of_mem hn) hclash
  intro m hm n hn p q hp hq hname
  obtain ⟨f, hf, hmf⟩ := mem_globals_api.1 hm
  obtain ⟨g, hg, hng⟩ := mem_globals_api.1 hn
  by_cases hfg : s.Reaches f g
  · exact (hseen f hf m hmf n (mem_globals_api.2 ⟨g, hfg, hng⟩) p q hp hq hname).symm
  · by_cases hgf : s.Reaches g f
    · exact hseen g hg n hng m (mem_globals_api.2 ⟨f, hgf, hmf⟩) q p hq hp hname.symm
    · exact absurd hname (h.globals f g hf hg hfg hgf m hmf n hng p q hp hq)

/-! ### Inheritance -/

section Names

variable (hplaced : (s.api i).Placed) (hb : s.AllBuilt i)
  (hnames : ∀ t ∈ (s.api i).types, ∀ u ∈ (s.api i).types, t.name.name = u.name.name → t.span = u.span)

include hplaced hnames

/-- What a name means to a file it means to all that reach the file. -/
theorem findType_of_reaches (hf : s.Reaches i f) (h : (s.api f).findType? name = some t) :
    (s.api i).findType? name = some t := by
  obtain ⟨ht, hname⟩ := Api.findType_name h
  obtain ⟨g, hg, htg⟩ := mem_types_api.1 ht
  have hti : t ∈ (s.api i).types := mem_types_api.2 ⟨g, hf.trans hg, htg⟩
  obtain ⟨u, hu⟩ : ∃ u, (s.api i).findType? name = some u :=
    isSome_iff_exists.1 (List.find?_isSome.2 ⟨t, hti, by simpa using hname⟩)
  obtain ⟨hui, hname'⟩ := Api.findType_name hu
  rw [hu, hplaced.type_eq hui hti (hnames u hui t hti (hname'.trans hname.symm))]

include hb

/-- What stands above a type is in sight of the file that declares it. -/
theorem ascends_of_reaches (hf : s.Reaches i f) {a n : String} (ha : ∃ t, (s.api f).findType? a = some t)
    (h : (s.api i).Ascends a n) : (s.api f).Ascends a n ∧ ∃ t, (s.api f).findType? n = some t := by
  induction h with
  | refl => exact ⟨.refl, ha⟩
  | @tail b c _ hstep ih =>
    obtain ⟨hascends, t, ht⟩ := ih
    obtain ⟨u, hu, hc⟩ := hstep
    obtain rfl : t = u := Option.some.inj ((findType_of_reaches hplaced hnames hf ht).symm.trans hu)
    obtain ⟨g, hg, htg⟩ := mem_types_api.1 (Api.findType_name ht).1
    obtain ⟨v, hv⟩ := ((hb g (hf.trans hg)).checked.1 t htg).ancestors c hc
    obtain ⟨hvg, hname⟩ := Api.findType_name hv
    obtain ⟨k, hk, hvk⟩ := mem_types_api.1 hvg
    refine ⟨hascends.tail ⟨t, ht, hc⟩, isSome_iff_exists.1 (List.find?_isSome.2 ⟨v, ?_, by simpa using hname⟩)⟩
    exact mem_types_api.2 ⟨k, hg.trans hk, hvk⟩

/-- A member was checked against all that its type inherits. -/
theorem clashes_inherited (hu : u ∈ (s.api i).types) (hv : v ∈ (s.api i).lineage u.name.name) (hm : m ∈ u.members)
    (hn : n ∈ v.members) (hclash : n.Clashes m) : n.span = m.span := by
  obtain ⟨f, hf, huf⟩ := mem_types_api.1 hu
  obtain ⟨k, hk, hkv⟩ := Api.mem_lineage_iff.1 hv
  have hfound : ∃ t, (s.api f).findType? u.name.name = some t :=
    isSome_iff_exists.1 (List.find?_isSome.2 ⟨u, mem_types_api.2 ⟨f, .refl, huf⟩, by simp⟩)
  obtain ⟨hascends, w, hw⟩ := ascends_of_reaches hplaced hb hnames hf hfound hk
  obtain rfl : w = v := Option.some.inj ((findType_of_reaches hplaced hnames hf hw).symm.trans hkv)
  have hlineage : w ∈ (s.api f).lineage u.name.name := Api.mem_lineage_iff.2 ⟨k, hascends, hw⟩
  exact ((hb f hf).checked.1 u huf).members m hm ⟨some w.name.name, n⟩
    (mem_flatMap.2 ⟨w, hlineage, mem_map_of_mem hn⟩) hclash

end Names

theorem mem_members {api : Api} {m : Member MemberDecl} (h : m ∈ api.members (some name)) :
    ∃ t ∈ api.lineage name, m.decl ∈ t.members := by
  obtain ⟨t, ht, hm⟩ := mem_flatMap.1 h
  obtain ⟨d, hd, rfl⟩ := mem_map.1 hm
  exact ⟨t, ht, hd⟩

/-- A type of a lineage is what its name means. -/
theorem mem_lineage_self {api : Api} {t : TypeDecl} (h : t ∈ api.lineage name) :
    t ∈ api.types ∧ t ∈ api.lineage t.name.name := by
  obtain ⟨n, -, hn⟩ := Api.mem_lineage_iff.1 h
  obtain ⟨ht, rfl⟩ := Api.findType_name hn
  exact ⟨ht, Api.mem_lineage_iff.2 ⟨_, .refl, hn⟩⟩

theorem single_of_untangled (hplaced : (s.api i).Placed) (hb : s.AllBuilt i) (h : s.Untangled i) :
    ∀ t ∈ (s.api i).types, (s.api i).Single t.name.name := by
  have hnames := names_of_untangled hb h
  intro t ht m hm n hn hclash
  obtain ⟨u, hu, hmu⟩ := mem_members hm
  obtain ⟨v, hv, hnv⟩ := mem_members hn
  by_cases huv : u ∈ (s.api i).lineage v.name.name
  · exact clashes_inherited hplaced hb hnames (mem_lineage_self hv).1 huv hnv hmu hclash
  · by_cases hvu : v ∈ (s.api i).lineage u.name.name
    · exact (clashes_inherited hplaced hb hnames (mem_lineage_self hu).1 hvu hmu hnv (Api.clashes_symm hclash)).symm
    · exact absurd hclash (h.members t ht u hu v hv huv hvu _ hmu _ hnv)

theorem untangled_of_unambiguous (hs : Reachable s) (h : (s.api i).Unambiguous) : s.Untangled i := by
  have hplaced := hs.placed_api i
  obtain ⟨hnames, hglobals, hsingle⟩ := (Api.unambiguous_iff_single hplaced).1 h
  have htypes : ∀ f, ∀ t ∈ s.typesOf f, t.span.file = f := by
    intro f t ht
    unfold typesOf at ht
    cases hscript : s.script? f with
    | none => simp [hscript] at ht
    | some script => exact (hs.placed hscript).typesIn t (by simpa [hscript] using ht)
  have hmembers : ∀ f, ∀ m ∈ s.globalsOf f, m.span.file = f := by
    intro f m hm
    unfold globalsOf at hm
    cases hscript : s.script? f with
    | none => simp [hscript] at hm
    | some script => exact (hs.placed hscript).membersIn m (.inl (by simpa [hscript] using hm))
  refine ⟨?_, ?_, ?_⟩
  · intro f g hf hg hfg _ t ht u hu hname
    have hspan := hnames t (mem_types_api.2 ⟨f, hf, ht⟩) u (mem_types_api.2 ⟨g, hg, hu⟩) hname
    have hsame : f = g := by rw [← htypes f t ht, ← htypes g u hu, hspan]
    exact hfg (hsame ▸ .refl)
  · intro f g hf hg hfg _ m hm n hn p q hp hq hname
    have hspan := hglobals m (mem_globals_api.2 ⟨f, hf, hm⟩) n (mem_globals_api.2 ⟨g, hg, hn⟩) p q hp hq hname
    have hsame : f = g := by rw [← hmembers f m hm, ← hmembers g n hn, hspan]
    exact hfg (hsame ▸ .refl)
  · intro t ht u hu v hv huv _ m hm n hn hclash
    obtain ⟨hui, huu⟩ := mem_lineage_self hu
    have hne : u ≠ v := fun h => huv (h ▸ huu)
    refine hplaced.member_ne hui (mem_lineage_self hv).1 hne hm hn ?_
    exact hsingle t ht ⟨some u.name.name, m⟩ (List.mem_flatMap.2 ⟨u, hu, List.mem_map_of_mem hm⟩) ⟨some v.name.name, n⟩
      (List.mem_flatMap.2 ⟨v, hv, List.mem_map_of_mem hn⟩) hclash

/-- What a file sees when it was compiled without problems is unambiguous exactly if there is no clash between
declarations that are not in sight of each other. -/
theorem unambiguous_iff (hs : Reachable s) (hquiet : s.Faultless i) {r : Fragment × Variables}
    (h : s.result? i = some r) : (s.api i).Unambiguous ↔ s.Untangled i := by
  have hb : s.AllBuilt i := (hs.orderly.sound _ hquiet.quiet i r .refl h).all
  have hplaced := hs.placed_api i
  refine ⟨untangled_of_unambiguous hs, fun hun => (Api.unambiguous_iff_single hplaced).2 ?_⟩
  exact ⟨names_of_untangled hb hun, globals_of_untangled hb hun, single_of_untangled hplaced hb hun⟩

theorem reachable_sessionOf (text : String) (debug : Bool) : Reachable (Build.sessionOf text debug) :=
  .compile 0 (.load Build.rootFile (.new (Build.oneFile text) debug))

theorem faultless_of_diagnostics (h : s.diagnostics = []) (i : Nat) : s.Faultless i :=
  fun j _ u hu => (diagnostics_eq_nil s).1 h j u hu

/-- An heir of two types. -/
def heirScript : String := "#type A \x7b int32 x; \x7d #type B \x7b int8 y; \x7d #type C : A, B \x7b int32 x(); \x7d"

set_option synthInstance.maxSize 256 in
theorem compile_heirScript : (Build.sessionOf heirScript false).diagnostics = [] ∧
    (Build.sessionOf heirScript false).importsOf 0 = [] ∧
      ((Build.sessionOf heirScript false).result? 0).map (·.1.bytes) = some #[] ∧
        ∀ t ∈ ((Build.sessionOf heirScript false).api 0).types,
          ∀ u ∈ ((Build.sessionOf heirScript false).api 0).lineage t.name.name,
            ∀ v ∈ ((Build.sessionOf heirScript false).api 0).lineage t.name.name,
              u ∉ ((Build.sessionOf heirScript false).api 0).lineage v.name.name →
                v ∉ ((Build.sessionOf heirScript false).api 0).lineage u.name.name →
                  ∀ m ∈ u.members, ∀ n ∈ v.members, ¬ m.Clashes n := by decide +kernel

theorem untangled_heirScript : (Build.sessionOf heirScript false).Untangled 0 := by
  obtain ⟨-, himports, -, hmembers⟩ := compile_heirScript
  have halone : ∀ f, (Build.sessionOf heirScript false).Reaches 0 f → 0 = f := by
    intro f hf
    obtain rfl | ⟨g, hg, -⟩ := Relation.ReflTransGen.cases_head hf
    · rfl
    · rw [himports] at hg
      cases hg
  refine ⟨fun f g hf hg hfg => ?_, fun f g hf hg hfg => ?_, hmembers⟩
  all_goals exact absurd (halone f hf ▸ hg) hfg

/-- The property of a parent and a function of the same name are told apart. -/
theorem unambiguous_iff_heir :
    Reachable (Build.sessionOf heirScript false) ∧ (Build.sessionOf heirScript false).Faultless 0 ∧
      (Build.sessionOf heirScript false).Untangled 0 ∧ ((Build.sessionOf heirScript false).api 0).Unambiguous := by
  have hs := reachable_sessionOf heirScript false
  have hquiet := faultless_of_diagnostics compile_heirScript.1 0
  obtain ⟨r, hr, -⟩ := Option.map_eq_some_iff.1 compile_heirScript.2.2.1
  exact ⟨hs, hquiet, untangled_heirScript, (unambiguous_iff hs hquiet hr).2 untangled_heirScript⟩

/-! ### Clashes that nothing checks -/

/-- A file is compiled without problems, and what it sees is ambiguous all the same. -/
def Overlooks (s : Session) (i : Nat) : Prop :=
  Reachable s ∧ s.Faultless i ∧ (s.result? i).isSome = true ∧ ¬ (s.api i).Unambiguous

/-- Both parents of a type have the same property. -/
def twinScript : String := "#type A \x7b int32 x; \x7d #type B \x7b int32 x; \x7d #type C : A, B \x7b \x7d"

/-- Two files that are imported side by side declare the same type and the same global property. -/
def strangers : Disk := diskOf [
  ("a", "#import \"b\"\n#import \"c\""),
  ("b", "#type T \x7b \x7d #global \x7b int32 p; \x7d"),
  ("c", "#type T \x7b \x7d #global \x7b int32 p; \x7d")]

def strangersLoaded : Session :=
  let s := (((Session.new strangers false).add (fileNamed "a")).add (fileNamed "b")).importing 1 []
  ((s.add (fileNamed "c")).importing 2 []).importing 0 [1, 2]

theorem load_strangers : (Session.new strangers false).load (fileNamed "a") = (0, strangersLoaded) := by
  show loadFrom 3 (fileNamed "a") (Session.new strangers false) = _
  refine loadFrom_named ["b", "c"] ?_ <|
    mapM_loadFrom_cons ["c"] (loadFrom_named [] ?_ rfl) <| mapM_loadFrom_cons [] (loadFrom_named [] ?_ rfl) rfl
  all_goals decide +kernel

theorem reachable_strangers : Reachable (strangersLoaded.compile 0) := by
  have hload := Reachable.load (fileNamed "a") (.new strangers false)
  rw [load_strangers] at hload
  exact .compile 0 hload

theorem compile_clashing :
    ((Build.sessionOf twinScript false).diagnostics = [] ∧ ((Build.sessionOf twinScript false).result? 0).isSome = true ∧
      (((Build.sessionOf twinScript false).api 0).propertiesNamed (some "C") "x").length = 2 ∧
      ((Build.sessionOf twinScript false).api 0).types.map (·.name.name) = ["A", "B", "C"]) ∧
    (strangersLoaded.compile 0).diagnostics = [] ∧ ((strangersLoaded.compile 0).result? 0).isSome = true ∧
      (((strangersLoaded.compile 0).api 0).typesNamed "T").length = 2 ∧
      (((strangersLoaded.compile 0).api 0).propertiesNamed none "p").length = 2 := by decide +kernel

/-- Two parents with a property of one name are no problem, and neither are two imports with a type or a global
property of one name. -/
theorem overlooked_clashes : (Build.sessionOf twinScript false).Overlooks 0 ∧ (strangersLoaded.compile 0).Overlooks 0 ∧
    (((strangersLoaded.compile 0).api 0).propertiesNamed none "p").length = 2 := by
  obtain ⟨⟨hquiet, hresult, hproperties, htypes⟩, hquiet', hresult', htypes', hglobals⟩ := compile_clashing
  refine ⟨⟨reachable_sessionOf _ _, faultless_of_diagnostics hquiet 0, hresult, fun h => ?_⟩,
    ⟨reachable_strangers, faultless_of_diagnostics hquiet' 0, hresult', fun h => ?_⟩, hglobals⟩
  · obtain ⟨t, ht, hname⟩ := List.mem_map.1 (htypes ▸ (by simp : "C" ∈ ["A", "B", "C"]))
    have hone := h.properties t ht "x"
    rw [hname, hproperties] at hone
    omega
  · have hone := h.types "T"
    omega

end Session

end HostScript
