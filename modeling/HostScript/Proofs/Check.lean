import HostScript.Compile.Statement

/-! Checks that pass.

A script is accepted when nothing at all was reported about it. Reports are never
taken back (`Keeps`), so a check that ends without reports had none at any point on
its way, and each of its parts *passes*: it gives its result starting and ending
without reports. `Passes.parts` takes a check apart along these lines. A check that
finds something or says why not (`Answers`) always finds something when it passes. -/
namespace HostScript

namespace Check

variable {α β : Type}

/-- The check gives `a`, and nothing is reported. -/
def Passes (c : Check α) (a : α) : Prop := c #[] = (a, #[])

/-- No report is taken back. -/
def Keeps (c : Check α) : Prop := ∀ r, ∀ x ∈ r, x ∈ (c r).2

/-- The check gives the same whatever was reported before. -/
def Steady (c : Check α) : Prop := ∀ r, (c r).1 = (c #[]).1

/-- The check only adds reports, and does not look at them. -/
class Plain (c : Check α) : Prop where
  keeps : Keeps c
  steady : Steady c

/-- Whatever it is given, a check that follows is plain. -/
class Tail (f : α → Check β) : Prop where
  plain : ∀ a, Plain (f a)

/-! ### Reports stay -/

theorem eq_empty_of_subset (h : ∀ x ∈ r, x ∈ r') (hr : r' = #[]) : r = #[] := by
  refine Array.eq_empty_iff_forall_not_mem.2 fun x hx => ?_
  have hx' := h x hx
  rw [hr] at hx'
  exact Array.not_mem_empty x hx'

theorem Keeps.empty (hc : Keeps c) (h : (c r).2 = #[]) : r = #[] :=
  eq_empty_of_subset (hc r) h

instance plain_pure (a : α) : Plain (pure a : Check α) := ⟨fun _ _ h => h, fun _ => rfl⟩

instance (priority := low) {f : α → Check β} [h : ∀ a, Plain (f a)] : Tail f := ⟨h⟩

instance {f : Option α → Check β} [hn : Plain (f none)] [hs : ∀ a, Plain (f (some a))] : Tail f where
  plain
    | none => hn
    | some a => hs a

theorem Plain.bind (hc : Plain c) (hf : ∀ a, Plain (f a)) : Plain (c >>= f) where
  keeps r x hx := (hf _).keeps _ x (hc.keeps r x hx)
  steady r := by
    show (f (c r).1 (c r).2).1 = (f (c #[]).1 (c #[]).2).1
    rw [hc.steady r, (hf _).steady (c r).2, (hf _).steady (c #[]).2]

instance plain_bind {c : Check α} {f : α → Check β} [hc : Plain c] [hf : Tail f] : Plain (c >>= f) := hc.bind hf.plain

instance {p : Prop} [Decidable p] {c d : Check α} [Plain c] [Plain d] : Plain (if p then c else d) := by
  split <;> infer_instance

instance (span : Span) (problem : Problem) : Plain (report span problem) where
  keeps r x hx := by
    show x ∈ Reports.add r span problem
    unfold Reports.add
    split
    · exact hx
    · exact Array.mem_push_of_mem _ hx
  steady _ := rfl

instance (span : Span) (problem : Problem) : Plain (refuse span problem : Check (Option α)) := plain_bind

instance (span : Span) (r : Except CastError Literal) : Plain (converted span r) := by
  unfold converted
  split <;> infer_instance

instance {γ : Type} (xs : List γ) {f : γ → Check PUnit} [hf : ∀ x, Plain (f x)] : Plain (xs.forM f) := by
  induction xs with
  | nil => exact plain_pure _
  | cons x rest ih => exact (hf x).bind fun _ => ih

/-! ### Results without reports -/

@[simp] theorem passes_pure : Passes (pure a : Check α) b ↔ a = b := by
  constructor
  · intro h
    exact congrArg Prod.fst h
  · rintro rfl
    rfl

theorem Passes.bind_iff (ha : Passes c a) : Passes (c >>= f) b ↔ Passes (f a) b := by
  show f (c #[]).1 (c #[]).2 = (b, #[]) ↔ _
  rw [show c #[] = (a, #[]) from ha]
  rfl

theorem Passes.bind (ha : Passes c a) (hb : Passes (f a) b) :
    Passes (c >>= f) b := ha.bind_iff.2 hb

/-- A check that passes had no reports on its way. -/
theorem Passes.partsOf (h : Passes (c >>= f) b) (hf : Tail f) : ∃ a, Passes c a ∧ Passes (f a) b := by
  have h' : f (c #[]).1 (c #[]).2 = (b, #[]) := h
  have hr : (c #[]).2 = #[] := (hf.plain _).keeps.empty (by rw [h'])
  exact ⟨(c #[]).1, Prod.ext rfl hr, by rw [hr] at h'; exact h'⟩

theorem Passes.parts [hf : Tail f] (h : Passes (c >>= f) b) :
    ∃ a, Passes c a ∧ Passes (f a) b := h.partsOf hf

theorem Passes.fst (h : Passes c a) : (c #[]).1 = a := congrArg Prod.fst h

theorem not_passes_report (span : Span) (problem : Problem) (a : Unit) : ¬ Passes (report span problem) a := by
  intro h
  have hadd : Reports.add #[] span problem = #[] := congrArg Prod.snd h
  simp [Reports.add, Reports.mentions] at hadd

theorem not_passes_report_bind (span : Span) (problem : Problem) [Tail f] (b : β) :
    ¬ Passes (report span problem >>= f) b := by
  intro h
  obtain ⟨a, ha, -⟩ := h.parts
  exact not_passes_report span problem a ha

theorem not_passes_refuse (span : Span) (problem : Problem) (a : Option α) : ¬ Passes (refuse span problem) a :=
  not_passes_report_bind span problem a

theorem passes_converted (h : Passes (converted span r) a) : ∃ l, r = .ok l ∧ a = some l := by
  cases r with
  | ok l => exact ⟨l, rfl, (passes_pure.1 h).symm⟩
  | error e => exact absurd h (not_passes_refuse span _ a)

/-! ### Checks that find something -/

/-- The check finds something unless it reports why not. -/
class Answers (c : Check (Option α)) : Prop extends Plain c where
  found : ∀ a, Passes c a → ∃ b, a = some b

instance answers_some (a : α) : Answers (pure (some a) : Check (Option α)) where
  found _ h := ⟨a, (passes_pure.1 h).symm⟩

instance (span : Span) (problem : Problem) : Answers (refuse span problem : Check (Option α)) where
  found a h := absurd h (not_passes_refuse span problem a)

instance (span : Span) (r : Except CastError Literal) : Answers (converted span r) where
  found _ h := (passes_converted h).imp fun _ h => h.2

/-- A check that goes on with what another one finds. What it does with nothing does not
matter, as long as no report is taken back. -/
instance answers_bind {c : Check (Option α)} {g : Option α → Check (Option β)} [hc : Answers c]
    [hs : ∀ a, Answers (g (some a))] [Plain (g none)] : Answers (c >>= g) := by
  refine { (inferInstance : Plain (c >>= g)) with found := fun b h => ?_ }
  obtain ⟨a, ha, hb⟩ := h.parts
  obtain ⟨a, rfl⟩ := hc.found a ha
  exact (hs a).found b hb

instance {p : Prop} [Decidable p] {c d : Check (Option α)} [Answers c] [Answers d] : Answers (if p then c else d) := by
  split <;> infer_instance

theorem Passes.foundOf [hc : Answers c] (h : Passes (c >>= g) b) (hg : Tail g) :
    ∃ a, Passes c (some a) ∧ Passes (g (some a)) b := by
  obtain ⟨a, ha, hb⟩ := h.partsOf hg
  obtain ⟨a, rfl⟩ := hc.found a ha
  exact ⟨a, ha, hb⟩

theorem Passes.found [Answers c] [hg : Tail g] (h : Passes (c >>= g) b) :
    ∃ a, Passes c (some a) ∧ Passes (g (some a)) b := h.foundOf hg

/-- The result of a check that finds something, under a function. -/
instance Answers.map {c : Check (Option α)} {f : α → β} [hc : Answers c] : Answers (do return (← c).map f) :=
  @answers_bind _ _ _ _ _ (fun a => answers_some (f a)) _

theorem Passes.map [Answers c] (h : Passes (do return (← c).map f) (some b)) : ∃ a, Passes c (some a) ∧ b = f a := by
  obtain ⟨a, ha, h⟩ := h.found
  exact ⟨a, ha, (Option.some.inj (passes_pure.1 h)).symm⟩

end Check

end HostScript
