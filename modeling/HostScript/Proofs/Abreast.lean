import HostScript.Proofs.Memory

/-! Two computations side by side.

Two computations keep *abreast* when related states lead to related results and again to
related states. So does a tree that is evaluated twice, once in a memory and once moved
up in a larger one that holds the first, as long as the host takes the states for the
same (`Node.concur`, `Instr.agree`). -/
namespace HostScript

open List Option

section Abreast

variable {σ τ α β γ δ : Type} {R : σ → τ → Prop} {Q : α → β → Prop} {Q' : γ → δ → Prop}

/-- From states that are related, results that are related and again such states. -/
def Abreast (R : σ → τ → Prop) (Q : α → β → Prop) (c : StateM σ α) (d : StateM τ β) : Prop :=
  ∀ s t, R s t → Q (c s).1 (d t).1 ∧ R (c s).2 (d t).2

theorem abreast_pure (h : Q a b) : Abreast R Q (pure a) (pure b) := fun _ _ hst => ⟨h, hst⟩

theorem Abreast.bind (h : Abreast R Q c d) (hfg : ∀ a b, Q a b → Abreast R Q' (f a) (g b)) :
    Abreast R Q' (c >>= f) (d >>= g) := fun s t hst =>
  let ⟨hq, hr⟩ := h s t hst
  hfg _ _ hq _ _ hr

theorem abreast_get : Abreast R R get get := fun _ _ hst => ⟨hst, hst⟩

theorem abreast_set (h : R s t) :
    Abreast R (fun _ _ => True) (set s) (set t) := fun _ _ _ => ⟨trivial, h⟩

theorem abreast_modify (h : ∀ s t, R s t → R (f s) (g t)) :
    Abreast R (fun _ _ => True) (modify f) (modify g) := fun s t hst => ⟨trivial, h s t hst⟩

theorem abreast_mapM (xs : List α) (h : ∀ x, Abreast R Eq (f x) (g x)) : Abreast R Eq (xs.mapM f) (xs.mapM g) := by
  induction xs with
  | nil => exact abreast_pure rfl
  | cons x rest ih =>
    rw [mapM_cons, mapM_cons]
    refine (h x).bind fun y y' hy => ih.bind fun ys ys' hys => abreast_pure ?_
    rw [hy, hys]

theorem abreast_foldlM (xs : List α) (h : ∀ a b x, Q' a b → Abreast R Q' (f a x) (g b x)) (hab : Q' a b) :
    Abreast R Q' (xs.foldlM f a) (xs.foldlM g b) := by
  induction xs generalizing a b with
  | nil => exact abreast_pure hab
  | cons x rest ih =>
    exact (h a b x hab).bind fun _ _ hab' => ih hab'

end Abreast

/-! ### Effects -/

namespace Effect

variable {σ α β γ δ : Type} {S : σ → σ → Prop} {Q : α → β → Prop} {Q' : γ → δ → Prop}

/-- Both computations give a result, or both halt with the same fault. -/
inductive Same (Q : α → β → Prop) : Except Fault α → Except Fault β → Prop
  | ok (h : Q a b) : Same Q (.ok a) (.ok b)
  | error (f : Fault) : Same Q (.error f) (.error f)

/-- Effects that do the same from states of the host that are related. -/
def Agree (S : σ → σ → Prop) (Q : α → β → Prop) (e : Effect σ α) (e' : Effect σ β) : Prop :=
  Abreast S (Same Q) e e'

theorem agree_pure (h : Q a b) : Agree S Q (pure a) (pure b) := fun _ _ hst => ⟨.ok h, hst⟩

theorem Agree.bind (h : Agree S Q e e') (hf : ∀ a b, Q a b → Agree S Q' (f a) (f' b)) :
    Agree S Q' (e >>= f) (e' >>= f') := by
  intro s t hst
  rw [bind_apply, bind_apply]
  obtain ⟨hr, hs⟩ := h s t hst
  rcases he : e s with ⟨r, s'⟩
  rcases he' : e' t with ⟨r', t'⟩
  rw [he, he'] at hr hs
  cases hr with
  | ok hab => exact hf _ _ hab s' t' hs
  | error f => exact ⟨.error f, hs⟩

/-- Both go on from the same result. -/
theorem Agree.after (h : Agree S Eq e e') (hf : ∀ a, Agree S Q' (f a) (f' a)) : Agree S Q' (e >>= f) (e' >>= f') := by
  refine h.bind ?_
  rintro a - rfl
  exact hf a

theorem Agree.imp (h : Agree S Q e e') (hi : ∀ a b, Q a b → P a b) : Agree S P e e' := by
  intro s t hst
  obtain ⟨hr, hs⟩ := h s t hst
  refine ⟨?_, hs⟩
  revert hr
  generalize (e s).1 = r
  generalize (e' t).1 = r'
  rintro (hab | f)
  · exact .ok (hi _ _ hab)
  · exact .error f

theorem agree_ask (h : Abreast S Q c d) : Agree S Q (ask c) (ask d) := by
  intro s t hst
  obtain ⟨hq, hs⟩ := h s t hst
  exact ⟨.ok hq, hs⟩

/-- What is known of the results of one effect. -/
theorem Agree.sat {P : α → Prop} {F : Fault → Prop} (h : Agree S Eq e e')
    (hp : ∀ s, Sat (.any σ) s e (fun a _ => P a) F) : Agree S (fun a b => a = b ∧ P a) e e' := by
  intro s t hst
  obtain ⟨hr, hs⟩ := h s t hst
  refine ⟨?_, hs⟩
  have hresult := (hp s).2
  revert hr hresult
  generalize (e s).1 = r
  generalize (e' t).1 = r'
  rintro (hab | f) hresult
  · exact .ok ⟨hab, hresult⟩
  · exact .error f

theorem Fixed.agree (h : Fixed e) : Agree S Eq e e := by
  obtain ⟨r, hr⟩ := h
  intro s t hst
  rw [hr, hr]
  cases r with
  | ok a => exact ⟨.ok rfl, hst⟩
  | error f => exact ⟨.error f, hst⟩

/-- Effects that agree on a result, found along what they are made of. -/
class Concur (S : σ → σ → Prop) (e e' : Effect σ α) : Prop where
  agree : Agree S Eq e e'

instance (e : Effect σ α) [h : Fixed e] : Concur S e e := ⟨h.agree⟩

instance concur_bind {e e' : Effect σ α} {f f' : α → Effect σ γ} [h : Concur S e e'] [hf : ∀ a, Concur S (f a) (f' a)] :
    Concur S (e >>= f) (e' >>= f') := ⟨h.agree.after fun a => (hf a).agree⟩

instance {p : Prop} [Decidable p] {e e' f f' : Effect σ α} [Concur S e e'] [Concur S f f'] :
    Concur S (if p then e else f) (if p then e' else f') := by
  split <;> infer_instance

theorem concur_ask (h : Abreast S Eq c d) : Concur S (ask c) (ask d) := ⟨agree_ask h⟩

end Effect

/-! ### Hosts -/

/-- A host that takes related states for the same: asked for something, it gives the same answer and
goes on to related states. Nothing is said of what it tells a debugger. -/
structure Host.Takes {σ : Type} (host : Host σ) (S : σ → σ → Prop) : Prop where
  invokeFunction : ∀ f, host.invokeFunction = some f → ∀ target symbol args,
    Abreast S Eq (f target symbol args) (f target symbol args)
  invokeSubscript : ∀ f, host.invokeSubscript = some f → ∀ target index, Abreast S Eq (f target index) (f target index)
  assignProperty : ∀ f, host.assignProperty = some f → ∀ target symbol value,
    Abreast S Eq (f target symbol value) (f target symbol value)
  assignSubscript : ∀ f, host.assignSubscript = some f → ∀ target index value,
    Abreast S Eq (f target index value) (f target index value)
  metadata : ∀ f, host.metadata = some f → ∀ text, Abreast S Eq (f text) (f text)

section Agree

open Effect World

variable {σ : Type} {S : σ → σ → Prop} {R : Rules} {base : Storage} {host : Host σ} {memory memory' : Memory}
  {numbers : String → Nat}

theorem concur_callFunction (hS : host.Takes S) (target : Pointer) (symbol : Symbol) (args : List Value)
    (expected : Option Kind) : Concur S (callFunction ⟨memory, host, numbers⟩ target symbol args expected)
      (callFunction ⟨memory', host, numbers⟩ target symbol args expected) := by
  unfold callFunction
  dsimp only
  split
  · infer_instance
  · rename_i f hf
    have := concur_ask (hS.invokeFunction f hf target symbol args)
    infer_instance

theorem concur_callSubscript (hS : host.Takes S) (target : Pointer) (index : Value) (k : Kind) :
    Concur S (callSubscript ⟨memory, host, numbers⟩ target index k)
      (callSubscript ⟨memory', host, numbers⟩ target index k) := by
  unfold callSubscript
  dsimp only
  split
  · infer_instance
  · split
    · infer_instance
    · rename_i f hf
      have := concur_ask (hS.invokeSubscript f hf target index)
      infer_instance

mutual
/-- A tree gives the same value where its variables are moved up and hold the same. -/
theorem Node.concur (hS : host.Takes S)
    (hload : ∀ k a, R.reads k a → memory'.load (base.move k a) k = memory.load a k) : (n : Node) →
    ∀ {k : Kind}, n.Typed R k → ∀ dead : Bool,
      Concur S (n.eval ⟨memory, host, numbers⟩ dead k) ((n.relocate base).eval ⟨memory', host, numbers⟩ dead k)
  | .literal _, _, _, _ | .bool _, _, _, _ | .null, _, _, _ => by
    unfold Node.relocate Node.eval
    infer_instance
  | .variable j a, k, ht, dead => by
    obtain ⟨rfl, hr⟩ := ht
    unfold Node.relocate Node.eval
    dsimp only
    rw [hload j a hr]
    infer_instance
  | .negate n, k, ht, dead | .not n, k, ht, dead => by
    have := n.concur hS hload ht.2
    unfold Node.relocate Node.eval
    infer_instance
  | .complement n, k, ht, dead => by
    have := n.concur hS hload ht.2.2
    unfold Node.relocate Node.eval
    infer_instance
  | .cast j n, k, ht, dead => by
    have := n.concur hS hload ht
    unfold Node.relocate Node.eval
    infer_instance
  | .arith _ l r, k, ht, dead | .concat l r, k, ht, dead | .and l r, k, ht, dead | .or l r, k, ht, dead
  | .compare _ _ l r, k, ht, dead => by
    have := l.concur hS hload ht.2.1
    have := r.concur hS hload ht.2.2
    unfold Node.relocate Node.eval
    infer_instance
  | .ternary c y n, k, ht, dead => by
    have := c.concur hS hload ht.1
    have := y.concur hS hload ht.2.1
    have := n.concur hS hload ht.2.2
    unfold Node.relocate Node.eval
    infer_instance
  | .coalesce l r, k, ht, dead => by
    obtain ⟨rfl, hl, hr⟩ := ht
    have := l.concur hS hload hl
    have := r.concur hS hload hr
    refine @concur_bind _ _ _ _ _ _ _ _ inferInstance fun v => ?_
    split <;> infer_instance
  | .call t d args, k, ht, dead => by
    have := t.concur hS hload ht.1
    have := args.concur hS hload ht.2.2
    have := @concur_callFunction σ S host memory memory' numbers hS
    unfold Node.relocate Node.eval World.symbol
    infer_instance
  | .subscript t j i, k, ht, dead => by
    have := t.concur hS hload ht.1
    have := i.concur hS hload ht.2
    have := @concur_callSubscript σ S host memory memory' numbers hS
    unfold Node.relocate Node.eval
    infer_instance

theorem Target.concur (hS : host.Takes S)
    (hload : ∀ k a, R.reads k a → memory'.load (base.move k a) k = memory.load a k) : (t : Target) →
    t.Typed R → ∀ dead : Bool,
      Concur S (t.eval ⟨memory, host, numbers⟩ dead) ((t.relocate base).eval ⟨memory', host, numbers⟩ dead)
  | .global, ht, dead => by
    unfold Target.relocate Target.eval
    infer_instance
  | .of n, ht, dead => by
    have := n.concur hS hload ht
    unfold Target.relocate Target.eval
    infer_instance

theorem Args.concur (hS : host.Takes S)
    (hload : ∀ k a, R.reads k a → memory'.load (base.move k a) k = memory.load a k) : (args : Args) →
    args.Typed R → ∀ dead : Bool,
      Concur S (args.eval ⟨memory, host, numbers⟩ dead) ((args.relocate base).eval ⟨memory', host, numbers⟩ dead)
  | .nil, ht, dead => by
    unfold Args.relocate Args.eval
    infer_instance
  | .cons k n rest, ht, dead => by
    have := n.concur hS hload ht.1
    have := rest.concur hS hload ht.2
    unfold Args.relocate Args.eval
    infer_instance
end

/-! ### Statements -/

instance (op : Opcode) (k : Kind) {current current' : Effect σ Value} [Concur S current current']
    (given : Value) : Concur S (updated op k current given) (updated op k current' given) := by
  unfold updated
  split <;> infer_instance

theorem concur_updateProperty (hS : host.Takes S) (k : Kind) (target : Pointer) (symbol : Symbol) (op : Opcode)
    (given : Value) : Concur S (updateProperty ⟨memory, host, numbers⟩ k target symbol op given)
      (updateProperty ⟨memory', host, numbers⟩ k target symbol op given) := by
  have := @concur_callFunction σ S host memory memory' numbers hS
  refine @concur_bind _ _ _ _ _ _ _ _ inferInstance fun value => ?_
  dsimp only
  split
  · infer_instance
  · rename_i f hf
    exact concur_ask (hS.assignProperty f hf target symbol value)

theorem concur_updateSubscript (hS : host.Takes S) (k : Kind) (target : Pointer) (index : Value) (op : Opcode)
    (given : Value) : Concur S (updateSubscript ⟨memory, host, numbers⟩ k target index op given)
      (updateSubscript ⟨memory', host, numbers⟩ k target index op given) := by
  have := @concur_callSubscript σ S host memory memory' numbers hS
  unfold updateSubscript
  split
  · infer_instance
  · refine @concur_bind _ _ _ _ _ _ _ _ inferInstance fun value => ?_
    dsimp only
    split
    · infer_instance
    · rename_i f hf
      exact concur_ask (hS.assignSubscript f hf target index value)

theorem abreast_notify (h : ∀ f, handler = some f → Abreast S Eq f f) :
    Abreast S Eq (Host.notify handler) (Host.notify handler) := by
  cases handler with
  | none => exact abreast_pure rfl
  | some f => exact h f rfl

variable {g : Regime} {left right : Memory}

/-- The value of an expression, in a memory and in one that holds it between two others. -/
theorem Node.agree_between (hS : host.Takes S) (hleft : left.Fits base) (hm : memory.Fits g.room) (n : Node)
    (ht : n.Typed (g.rules fun _ => True) k) :
    Agree S (fun v v' => v = v' ∧ v.kind? = some k) (n.eval ⟨memory, host, numbers⟩ false k)
      ((n.relocate base).eval ⟨left ++ memory ++ right, host, numbers⟩ false k) := by
  have hagree : Agree S Eq (n.eval ⟨memory, host, numbers⟩ false k)
      ((n.relocate base).eval ⟨left ++ memory ++ right, host, numbers⟩ false k) :=
    (n.concur (R := g.rules fun _ => True) hS (fun k a hr => Memory.load_between hleft hm hr.1) ht false).agree
  have hsat : ∀ s, Sat (.any σ) s (n.eval ⟨memory, host, numbers⟩ false k) (Trust.Of _ k) _ := fun s =>
    n.sat (Trust.keptBy_any host) k false s ht ⟨fun k a hr => hm.load hr.1, fun _ _ _ _ _ _ => trivial⟩
  exact hagree.sat fun s => (hsat s).imp fun _ _ _ h => h.1

/-- A statement that does not jump does the same, and only in its own part of memory. -/
theorem Instr.agree (hS : host.Takes S) (hleft : left.Fits base) (hm : memory.Fits g.room) {i : Instr}
    (ht : i.Typed (g.rules fun _ => True) g.room.Holds) (hp : i.Proceeds) (hi : ¬ i.Tells) :
    Agree S (fun r r' => (r.1 = .next ∧ r'.1 = .next) ∧ Memory.Between left right g.room r.2 r'.2)
      (i.exec ⟨memory, host, numbers⟩) ((i.relocate base).exec ⟨left ++ memory ++ right, host, numbers⟩) := by
  have hload : ∀ k a, (g.rules fun _ => True).reads k a →
      (left ++ memory ++ right).load (base.move k a) k = memory.load a k :=
    fun k a hr => Memory.load_between hleft hm hr.1
  have hsame : (((Move.next, memory).1 = .next) ∧ (Move.next, left ++ memory ++ right).1 = .next) ∧
      Memory.Between left right g.room (Move.next, memory).2 (Move.next, left ++ memory ++ right).2 :=
    ⟨⟨rfl, rfl⟩, hm, rfl⟩
  cases i with
  | assign k a v =>
    refine (v.agree_between hS hleft hm ht.2).bind ?_
    rintro value _ ⟨rfl, hkind⟩
    obtain ⟨m, hstore, hstore'⟩ := Memory.store_between right hleft hm ht.1 hkind
    rw [hstore, hstore']
    exact agree_pure ⟨⟨rfl, rfl⟩, hm.stored hstore, rfl⟩
  | assignProperty k t d op v =>
    exact (t.concur hS hload ht.1 false).agree.after fun target => (v.concur hS hload ht.2.2 false).agree.after fun given =>
      (fixed_requireTarget target).agree.after fun p => (concur_updateProperty hS k p _ op given).agree.after fun _ =>
        agree_pure hsame
  | assignSubscript k t j i op v =>
    exact (t.concur hS hload ht.1 false).agree.after fun x => (fixed_toPointer x).agree.after fun p =>
      (i.concur hS hload ht.2.1 false).agree.after fun index => (v.concur hS hload ht.2.2.2 false).agree.after fun given =>
        (concur_updateSubscript hS k p index op given).agree.after fun _ => agree_pure hsame
  | callUnused t d args =>
    exact (t.concur hS hload ht.1 false).agree.after fun target => (args.concur hS hload ht.2.2 false).agree.after fun vs =>
      (fixed_requireTarget target).agree.after fun p => (concur_callFunction hS p _ vs none).agree.after fun _ =>
        agree_pure hsame
  | metadata text =>
    refine (agree_ask (abreast_notify fun f hf => ?_)).after fun _ => agree_pure hsame
    obtain ⟨f', hf', rfl⟩ := map_eq_some_iff.1 hf
    exact hS.metadata f' hf' text
  | conditional | forward | back | exit | leap => exact hp.elim
  | debugLine | clearedLine | debugUpdate | debugDelete => exact absurd trivial hi

end Agree

end HostScript
