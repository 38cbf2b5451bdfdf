import HostScript.Proofs.Folding
import HostScript.Proofs.Pointers

/-! Code with nothing folded.

What the machine makes of the code of a tree in which nothing was folded, next to what
folding makes of the expression. -/
namespace HostScript

open Check Code

variable {σ : Type} {s : Scope} {e : Expr} {t : Ty} {k : Kind} {l : Literal} {n : Node}
  {numbers : String → Nat} {code : Array UInt8} {p : Nat}

/-- Code can name the places of all variables in sight. -/
def Scope.Addressed (s : Scope) : Prop := ∀ name v, s.vars.find? name = some v → v.address < 256 ^ 2

/-- Any place that code can name may be read, and bits of floating-point numbers asked for. -/
def Rules.addressable : Rules := ⟨fun _ a => a < 256 ^ 2, True⟩

/-- The machine does with code what its tree does. -/
theorem Node.Typed.follows (h : n.Typed .addressable k) (hcode : HasAt code p (n.code numbers)) (memory : Memory)
    (host : Host σ) : Follows (Setting.evaluate ⟨code, memory, host⟩ false k) p
      (n.eval ⟨memory, host, numbers⟩ false k) fun _ => p + (n.code numbers).length :=
  evaluates (R := .addressable) (fun _ _ h => h) _ n k false p h hcode (Nat.le_refl _)

theorem Emits.typed_off (hn : Emits .off s e t n) (hs : ¬ e.Closed → s.Addressed) (hk : t.primitive = .kind k)
    (hx : ∀ x ∈ e.texts, Clean x) : n.Typed .addressable k :=
  hn.typed Folding.isClean_off ⟨fun h _ v _ hv _ => hs h _ v hv, hx, .inl trivial⟩ hk

/-- What the machine makes of a concrete expression is what it is folded to. -/
theorem folded_evaluated (hc : e.Concrete) (hx : ∀ x ∈ e.texts, Clean x) (htype : Passes (typeOf s e) (some t))
    (hfold : Passes (fold e) (some l)) (hn : Emits .off s e t n) (hcode : HasAt code p (n.code numbers))
    (memory : Memory) (host : Host σ) (st : σ) :
    ∃ k, t.primitive = .kind k ∧ Setting.evaluate ⟨code, memory, host⟩ false k p st =
      ((.ok l.value, p + (n.code numbers).length), st) := by
  obtain ⟨k, hk⟩ := Primitive.kind_of_isPlain (typeOf_plain e hc htype)
  obtain ⟨_, heq, -, hgives⟩ := Emits.gives (σ := σ) e hc hn hk hfold
  cases heq
  exact ⟨k, hk, ((hn.typed_off (fun h => absurd hc.closed h) hk hx).follows hcode memory host st).1 _ _ (hgives _ false st)⟩

/-! ### Texts and small integers -/

namespace Unfolded

def here : Span := ⟨0, 0, 0⟩

/-- The only member of the host, `bool f()`. -/
def asked : FunctionDecl := ⟨⟨.bool, here⟩, ⟨"f", here⟩, [], false, here⟩

def scope : Scope := ⟨⟨[], [.function asked]⟩, .empty⟩

def text (x : String) : Expr := .literal here (.string x)

def byte (word : Word .uint8) : Expr := .literal here (.int .uint8 word)

/-- `"a" + "b" == "ab"` -/
def joined : Expr := .binary here (.compare .eq) (.binary here (.arith .add) (text "a") (text "b")) (text "ab")

def joinedTree : Node :=
  .compare .eq .string (.concat (.literal (.string "a")) (.literal (.string "b"))) (.literal (.string "ab"))

theorem emits_text (x : String) : Emits .off scope (text x) .string (.literal (.string x)) :=
  .literal (l := .string x) (m := .string x) rfl ⟨.string, rfl, rfl⟩ rfl

theorem emits_joined : Emits .off scope joined .bool joinedTree :=
  .compare (l := .string) (r := .string) ⟨rfl, .bool, rfl, rfl⟩ rfl rfl rfl rfl
    (.arith ⟨rfl, .string, rfl, rfl⟩ (emits_text "a") (emits_text "b")) (emits_text "ab")

/-- `"a" + "b" == "ab" ? 200 + 100 : (uint8)"7"`, where the numbers are of kind `uint8` -/
def wrapping : Expr :=
  .ternary here joined (.binary here (.arith .add) (byte 200) (byte 100))
    (.cast here ⟨.prim (.kind (.int .uint8)), here⟩ (text "7"))

def wrappingTree : Node :=
  .ternary joinedTree (.arith .add (.literal (.int .uint8 200)) (.literal (.int .uint8 100)))
    (.cast .string (.literal (.string "7")))

theorem emits_byte (word : Word .uint8) :
    Emits .off scope (byte word) (.prim (.kind (.int .uint8))) (.literal (.int .uint8 word)) :=
  .literal (l := .int .uint8 word) (m := .int .uint8 word) rfl ⟨.prim (.kind (.int .uint8)), rfl, rfl⟩ rfl

theorem emits_wrapping : Emits .off scope wrapping (.prim (.kind (.int .uint8))) wrappingTree :=
  .ternary ⟨rfl, .prim (.kind (.int .uint8)), rfl, rfl⟩ rfl emits_joined
    (.arith ⟨rfl, .prim (.kind (.int .uint8)), rfl, rfl⟩ (emits_byte 200) (emits_byte 100))
    (.cast (k := .int .uint8) ⟨rfl, .prim (.kind (.int .uint8)), rfl, rfl⟩ rfl rfl rfl (by decide) (emits_text "7"))

theorem concrete_wrapping : wrapping.Concrete :=
  ⟨⟨⟨rfl, rfl⟩, rfl⟩, ⟨rfl, rfl⟩, rfl, rfl⟩

/-- The bytes of a tree as code of their own. -/
def codeOf (n : Node) : Array UInt8 := (n.code fun _ => 1).toArray

theorem hasAt_codeOf (n : Node) : HasAt (codeOf n) 0 (n.code fun _ => 1) := by
  simp [HasAt, codeOf]

theorem folded_evaluated_wrapping :
    Passes (fold wrapping) (some (.int .uint8 44)) ∧
      ∃ k, Primitive.kind (.int .uint8) = .kind k ∧
        Setting.evaluate ⟨codeOf wrappingTree, ⟨#[], #[]⟩, Host.idle⟩ false k 0 () =
          ((.ok (.int .uint8 44), 0 + (wrappingTree.code fun _ => 1).length), ()) :=
  ⟨rfl, folded_evaluated (l := .int .uint8 44) concrete_wrapping (by decide) (by rfl) (by rfl) emits_wrapping
    (hasAt_codeOf _) _ _ _⟩

/-- A text is cut at its `NUL` character when it is read back from code. -/
theorem folded_text_cut :
    (text "a\x00b").Concrete ∧ Passes (typeOf scope (text "a\x00b")) (some .string) ∧
      Passes (fold (text "a\x00b")) (some (.string "a\x00b")) ∧
      Emits .off scope (text "a\x00b") .string (.literal (.string "a\x00b")) ∧
      (Setting.evaluate ⟨codeOf (.literal (.string "a\x00b")), ⟨#[], #[]⟩, Host.idle⟩ false .string 0 ()).1.1 =
        .ok (.string "a") :=
  ⟨rfl, rfl, rfl, emits_text _, rfl⟩

end Unfolded

/-! ### Choices -/

/-- Evaluating what folding knows makes no call, as long as folding decides as a run does. -/
theorem folding_hides_no_call (hs : s.Addressed) (hsteady : e.Steady s) (hx : ∀ x ∈ e.texts, Clean x)
    (hk : t.primitive = .kind k) (hfold : Passes (fold e) (some l)) (hn : Emits .off s e t n)
    (hcode : HasAt code p (n.code numbers)) (memory : Memory) (host : Host σ) (st : σ) (events : Array Event) :
    (Setting.evaluate ⟨code, memory, host.recording⟩ false k p (st, events)).2 = (st, events) := by
  have hfollows := (hn.typed_off (fun _ => hs) hk hx).follows hcode memory host.recording (st, events)
  have hstill := hn.still ⟨memory, host.recording, numbers⟩ e hsteady hfold k (st, events)
  rcases heval : n.eval ⟨memory, host.recording, numbers⟩ false k (st, events) with ⟨f | v, st'⟩
  · rw [heval] at hstill
    obtain ⟨f', c, hresult, -⟩ := hfollows.2 f st' heval
    rw [hresult]
    exact hstill
  · rw [heval] at hstill
    rw [hfollows.1 v st' heval]
    exact hstill

namespace Unfolded

def call : Expr := .object here (.root (.call here ⟨"f", here⟩ []))

def callTree : Node := .call .global (Member.functionDescriptor ⟨none, asked⟩) .nil

theorem emits_call : Emits .off scope call .bool callTree :=
  .object ⟨rfl, .bool, rfl, rfl⟩ (.global rfl (.call (f := ⟨none, asked⟩) (by rfl) (by rfl) (by decide)
    (.nil : EmitsArgs .off scope [] [] [] .nil)))

/-- `"a" + "b" == "ab" ? true : f()` -/
def spared : Expr := .ternary here joined (.literal here (.bool true)) call

def sparedTree : Node := .ternary joinedTree (.bool true) callTree

theorem emits_spared : Emits .off scope spared .bool sparedTree :=
  .ternary ⟨rfl, .bool, rfl, rfl⟩ rfl emits_joined
    (.literal (l := .bool true) (m := .bool true) rfl ⟨.bool, rfl, rfl⟩ rfl) emits_call

theorem steady_spared : spared.Steady scope := by
  refine ⟨⟨⟨trivial, trivial⟩, trivial⟩, true, rfl, Expr.Concrete.comesTo ?_ rfl, trivial⟩
  exact ⟨⟨rfl, rfl⟩, rfl⟩

theorem folding_hides_no_call_spared :
    Passes (fold spared) (some (.bool true)) ∧
      (Setting.evaluate ⟨codeOf sparedTree, ⟨#[], #[]⟩, (Host.answering (.bool true)).recording⟩ false .bool 0
        ((), #[])).2 = ((), #[]) :=
  ⟨rfl, folding_hides_no_call (s := scope) (fun _ _ h => by cases h) steady_spared (by decide) rfl rfl emits_spared (hasAt_codeOf _)
    _ _ _ _⟩

/-- `f() || true` is known, so no call is left in its code; evaluated as it is written, it calls. -/
theorem folding_hides_call :
    Passes (emit scope (.binary here .or call (.literal here (.bool true))) .bool) (.literal (.bool true)) ∧
      Passes (fold (.binary here .or call (.literal here (.bool true)))) (some (.bool true)) ∧
      Emits .off scope (.binary here .or call (.literal here (.bool true))) .bool (.or callTree (.bool true)) ∧
      (Setting.evaluate ⟨codeOf (.or callTree (.bool true)), ⟨#[], #[]⟩, (Host.answering (.bool true)).recording⟩
        false .bool 0 ((), #[])).2 = ((), #[.call 0 1 [] (.bool true)]) :=
  ⟨rfl, rfl, .or ⟨rfl, .bool, rfl, rfl⟩ emits_call
    (.literal (l := .bool true) (m := .bool true) rfl ⟨.bool, rfl, rfl⟩ rfl), rfl⟩

end Unfolded

end HostScript
