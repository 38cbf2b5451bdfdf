import HostScript.Proofs.Flow
import HostScript.Proofs.Reading

/-! Memory as variables see it.

A memory of the size that code asks for can load and store every variable within it.
A store changes the bytes of its own variable only, and a pointer that was stored is
what is loaded. -/
namespace HostScript

variable {a b : Nat} {room : Storage}

/-- A variable of a kind at an address. -/
structure Cell where
  kind : Kind
  address : Nat
  deriving DecidableEq

/-- No byte and no text belongs to both. -/
def Cell.Apart (c d : Cell) : Prop :=
  if c.kind = .string ∨ d.kind = .string then c ≠ d
  else c.address + c.kind.size ≤ d.address ∨ d.address + d.kind.size ≤ c.address

theorem Apart.cell (h : Apart k a b) : Cell.Apart ⟨k, a⟩ ⟨.pointer, b⟩ := by
  unfold Cell.Apart
  by_cases hk : k = .string
  · subst hk
    exact fun h => by cases h
  · rw [if_neg (not_or.2 ⟨hk, Kind.noConfusion⟩)]
    exact (h.resolve_left hk).symm

namespace Memory

/-! ### Bytes -/

@[simp] theorem size_write (bytes : Array UInt8) (a : Nat) (bs : List UInt8) :
    (write bytes a bs).size = bytes.size := by
  induction bs generalizing bytes a with
  | nil => rfl
  | cons b rest ih => rw [write, ih, Array.size_setIfInBounds]

theorem getElem?_write (bytes : Array UInt8) (a : Nat) (bs : List UInt8) (i : Nat) :
    (write bytes a bs)[i]? =
      if a ≤ i ∧ i < a + bs.length ∧ i < bytes.size then bs[i - a]? else bytes[i]? := by
  induction bs generalizing bytes a with
  | nil => rw [write, if_neg (by simp; omega)]
  | cons b rest ih =>
    rw [write, ih, Array.size_setIfInBounds, Array.getElem?_setIfInBounds, List.length_cons]
    by_cases hi : a = i
    · subst hi
      rw [if_neg (by omega), if_pos rfl, Nat.sub_self]
      by_cases hsize : a < bytes.size
      · rw [if_pos hsize, if_pos ⟨Nat.le_refl a, by omega, hsize⟩]
        rfl
      · rw [if_neg hsize, if_neg (by omega), Array.getElem?_eq_none (by omega)]
    · rw [if_neg hi]
      by_cases hin : a + 1 ≤ i ∧ i < a + 1 + rest.length ∧ i < bytes.size
      · rw [if_pos hin, if_pos (by omega), show i - a = i - (a + 1) + 1 by omega]
        rfl
      · rw [if_neg hin, if_neg (by omega)]

theorem extract_congr {xs ys : Array UInt8} (hsize : xs.size = ys.size) (h : ∀ i, a ≤ i → i < b → xs[i]? = ys[i]?) :
    xs.extract a b = ys.extract a b := by
  refine Array.ext_getElem? fun i => ?_
  rw [Array.getElem?_extract, Array.getElem?_extract, hsize]
  split
  · exact h (a + i) (by omega) (by omega)
  · rfl

/-- The bytes that were written are read back. -/
theorem extract_write (bytes : Array UInt8) (bs : List UInt8) (h : a + bs.length ≤ bytes.size) :
    ((write bytes a bs).extract a (a + bs.length)).toList = bs := by
  refine List.ext_getElem? fun i => ?_
  rw [Array.getElem?_toList, Array.getElem?_extract, size_write, getElem?_write, Nat.add_sub_cancel_left]
  split
  · rw [if_pos (by omega)]
  · rw [List.getElem?_eq_none (by omega)]

/-! ### Variables -/

/-- Memory of the size of some storage. -/
structure Fits (m : Memory) (room : Storage) : Prop where
  bytes : m.bytes.size = room.bytes
  slots : m.strings.size = room.slots

variable {m m' : Memory} {k : Kind} {v : Value}

theorem load_eq (hk : k ≠ .string) (h : a + k.size ≤ m.bytes.size) :
    m.load a k = .ok (.ofBytes k (m.bytes.extract a (a + k.size)).toList) := by
  rw [load, if_neg hk, if_pos h]

theorem load_string (h : a < m.strings.size) : m.load a .string = .ok (.string m.strings[a]) := by
  rw [load, if_pos rfl, Array.getElem?_eq_getElem h]

theorem store_string (s : String) (h : a < m.strings.size) :
    m.store a (.string s) = .ok { m with strings := m.strings.setIfInBounds a s } := if_pos h

theorem store_eq (hv : v.kind? = some k) (hk : k ≠ .string) (h : a + k.size ≤ m.bytes.size) :
    m.store a v = .ok { m with bytes := write m.bytes a v.bytes } := by
  rw [← Value.length_bytes hv] at h
  cases v with
  | nothing => cases hv
  | string s =>
    cases hv
    exact absurd rfl hk
  | _ => exact if_pos h

theorem Fits.load (h : m.Fits room) (hin : room.Holds k a) : ∃ v, m.load a k = .ok v := by
  unfold Storage.Holds at hin
  by_cases hk : k = .string
  · subst hk
    rw [← h.slots] at hin
    exact ⟨_, load_string hin⟩
  · rw [if_neg hk, ← h.bytes] at hin
    exact ⟨_, load_eq hk hin⟩

theorem Fits.store (h : m.Fits room) (hin : room.Holds k a) (hv : v.kind? = some k) : ∃ m', m.store a v = .ok m' := by
  unfold Storage.Holds at hin
  by_cases hk : k = .string
  · subst hk
    rw [← h.slots] at hin
    obtain ⟨s, rfl⟩ : ∃ s, v = .string s := by cases v <;> cases hv; exact ⟨_, rfl⟩
    exact ⟨_, store_string s hin⟩
  · rw [if_neg hk, ← h.bytes] at hin
    exact ⟨_, store_eq hv hk hin⟩

/-- Everything a store can do. -/
theorem store_cases (h : m.store a v = .ok m') :
    (∃ s, v = .string s ∧ a < m.strings.size ∧ m' = { m with strings := m.strings.setIfInBounds a s }) ∨
      (v.kind? ≠ some .string ∧ a + v.bytes.length ≤ m.bytes.size ∧
        m' = { m with bytes := write m.bytes a v.bytes }) := by
  unfold Memory.store at h
  split at h
  · cases h
  · rename_i s
    split at h
    · cases h
      exact .inl ⟨s, rfl, by assumption, rfl⟩
    · cases h
  · rename_i hs
    split at h
    · cases h
      refine .inr ⟨fun hk => ?_, by assumption, rfl⟩
      cases v <;> cases hk
      exact hs _ rfl
    · cases h

theorem Fits.stored (hfits : m.Fits room) (h : m.store a v = .ok m') : m'.Fits room := by
  obtain ⟨s, -, -, rfl⟩ | ⟨-, -, rfl⟩ := store_cases h
  · exact ⟨hfits.bytes, (Array.size_setIfInBounds ..).trans hfits.slots⟩
  · exact ⟨(size_write ..).trans hfits.bytes, hfits.slots⟩

/-- A store elsewhere leaves a variable as it is. -/
theorem load_store_apart (h : m.store a v = .ok m') (hv : v.kind? = some j) (hab : Cell.Apart ⟨j, a⟩ ⟨k, b⟩) :
    m'.load b k = m.load b k := by
  unfold Cell.Apart at hab
  dsimp only at hab
  obtain ⟨s, rfl, -, rfl⟩ | ⟨hs, -, rfl⟩ := store_cases h <;> unfold load
  · cases hv
    split
    · subst k
      have hne : a ≠ b := by simpa using hab
      rw [Array.getElem?_setIfInBounds_ne hne]
    · rfl
  · split
    · rfl
    · rename_i hk
      have hj : j ≠ .string := fun hj => hs (hj ▸ hv)
      rw [if_neg (not_or.2 ⟨hj, hk⟩)] at hab
      have hkeep : (write m.bytes a v.bytes).extract b (b + k.size) = m.bytes.extract b (b + k.size) := by
        refine extract_congr (size_write ..) fun i hlo hhi => ?_
        rw [getElem?_write, Value.length_bytes hv]
        exact if_neg (by omega)
      rw [hkeep, size_write]

theorem load_store (h : m.store a v = .ok m') (hk : v.kind? = some k) : m'.load a k = .ok v := by
  obtain ⟨s, rfl, hslot, rfl⟩ | ⟨hs, hsize, rfl⟩ := store_cases h
  · cases hk
    rw [load_string (by simpa using hslot)]
    simp
  · have hlength := Value.length_bytes hk
    have hstring : k ≠ .string := fun hk' => hs (hk' ▸ hk)
    rw [load_eq hstring (by rw [size_write, ← hlength]; exact hsize), ← hlength, extract_write _ _ hsize,
      Value.ofBytes_bytes hk hstring]

/-- Memory in which nothing was stored yet. -/
def blank (room : Storage) : Memory := ⟨Array.replicate room.bytes 0, Array.replicate room.slots ""⟩

theorem fits_blank (room : Storage) : (blank room).Fits room := ⟨Array.size_replicate, Array.size_replicate⟩

theorem toNat_replicate_zero (n : Nat) : Bytes.toNat (List.replicate n 0) = 0 := by
  induction n with
  | zero => rfl
  | succ n ih =>
    rw [List.replicate_succ, Bytes.toNat, ih]
    rfl

theorem ofBytes_zeros (k : Kind) (n : Nat) : Value.ofBytes k (List.replicate n 0) = .zero k := by
  unfold Value.ofBytes
  rw [toNat_replicate_zero]
  cases k with
  | float j => cases j <;> rfl
  | _ => rfl

theorem load_blank (h : (blank room).load a k = .ok v) : v = .zero k := by
  unfold load blank at h
  split at h
  · subst k
    rw [Array.getElem?_replicate] at h
    by_cases ha : a < room.slots
    · rw [if_pos ha] at h
      cases h
      rfl
    · rw [if_neg ha] at h
      cases h
  · split at h
    · cases h
      rw [Array.extract_replicate, Array.toList_replicate, ofBytes_zeros]
    · cases h

/-! ### Memory within memory -/

instance : Append Memory := ⟨fun m m' => ⟨m.bytes ++ m'.bytes, m.strings ++ m'.strings⟩⟩

theorem bytes_append (m m' : Memory) : (m ++ m').bytes = m.bytes ++ m'.bytes := rfl

theorem strings_append (m m' : Memory) : (m ++ m').strings = m.strings ++ m'.strings := rfl

theorem append_assoc (m m' m'' : Memory) : m ++ m' ++ m'' = m ++ (m' ++ m'') := by
  show Memory.mk _ _ = Memory.mk _ _
  simp only [bytes_append, strings_append, Array.append_assoc]

theorem blank_none_append (m : Memory) : blank .none ++ m = m := by
  show Memory.mk (#[] ++ m.bytes) (#[] ++ m.strings) = m
  rw [Array.empty_append, Array.empty_append]

theorem append_blank_none (m : Memory) : m ++ blank .none = m := by
  show Memory.mk (m.bytes ++ #[]) (m.strings ++ #[]) = m
  rw [Array.append_empty, Array.append_empty]

theorem Fits.append (h : m.Fits room) (h' : m'.Fits room') : (m ++ m').Fits (room + room') := by
  constructor
  · rw [bytes_append, Array.size_append, h.bytes, h'.bytes]
    rfl
  · rw [strings_append, Array.size_append, h.slots, h'.slots]
    rfl

theorem blank_add (room room' : Storage) : blank (room + room') = blank room ++ blank room' := by
  show Memory.mk _ _ = Memory.mk _ _
  congr 1
  · exact Array.replicate_append_replicate.symm
  · exact Array.replicate_append_replicate.symm

theorem getElem?_between (xs ys zs : Array α) (h : i < ys.size) : (xs ++ ys ++ zs)[i + xs.size]? = ys[i]? := by
  rw [Array.getElem?_append_left (by rw [Array.size_append]; omega), Array.getElem?_append_right (by omega),
    Nat.add_sub_cancel]

theorem extract_between (xs ys zs : Array UInt8) (h : a + n ≤ ys.size) :
    (xs ++ ys ++ zs).extract (a + xs.size) (a + xs.size + n) = ys.extract a (a + n) := by
  refine Array.ext_getElem? fun i => ?_
  rw [Array.getElem?_extract, Array.getElem?_extract, Array.size_append, Array.size_append]
  by_cases hi : i < n
  · rw [if_pos (by omega), if_pos (by omega), show a + xs.size + i = a + i + xs.size by omega,
      getElem?_between xs ys zs (by omega)]
  · rw [if_neg (by omega), if_neg (by omega)]

theorem write_between (xs ys zs : Array UInt8) (bs : List UInt8) (h : a + bs.length ≤ ys.size) :
    write (xs ++ ys ++ zs) (a + xs.size) bs = xs ++ write ys a bs ++ zs := by
  refine Array.ext_getElem? fun i => ?_
  rw [getElem?_write]
  simp only [Array.getElem?_append, Array.size_append, size_write, getElem?_write]
  by_cases hi : a + xs.size ≤ i ∧ i < a + xs.size + bs.length
  · rw [if_pos (by omega), if_pos (by omega), if_neg (by omega), if_pos (by omega),
      show i - (a + xs.size) = i - xs.size - a by omega]
  · rw [if_neg (by omega)]
    split
    · split
      · rfl
      · rw [if_neg (by omega)]
    · rfl

variable {left right : Memory} {base : Storage}

/-- What is loaded from a part of memory is loaded from where this part starts. -/
theorem load_between (hleft : left.Fits base) (hm : m.Fits room) (hin : room.Holds k a) :
    (left ++ m ++ right).load (base.move k a) k = m.load a k := by
  unfold Storage.Holds at hin
  unfold Storage.move
  by_cases hk : k = .string
  · subst hk
    rw [← hm.slots] at hin
    rw [if_pos rfl, ← hleft.slots, load, load, if_pos rfl, if_pos rfl, strings_append, strings_append,
      getElem?_between _ _ _ hin, Array.getElem?_eq_getElem hin]
  · rw [if_neg hk, ← hm.bytes] at hin
    have hsize : a + left.bytes.size + k.size ≤ (left ++ m ++ right).bytes.size := by
      rw [bytes_append, bytes_append, Array.size_append, Array.size_append]
      omega
    rw [if_neg hk, ← hleft.bytes, load_eq hk hsize, load_eq hk hin, bytes_append, bytes_append,
      extract_between _ _ _ hin]

/-- A memory of the size of some storage, and a larger one with the first between two others. -/
structure Between (left right : Memory) (room : Storage) (m m' : Memory) : Prop where
  fits : m.Fits room
  eq : m' = left ++ m ++ right

/-- A store to a part of memory leaves the rest as it is. -/
theorem store_between (right : Memory) (hleft : left.Fits base) (hm : m.Fits room) (hin : room.Holds k a)
    (hv : v.kind? = some k) :
    ∃ m', m.store a v = .ok m' ∧ (left ++ m ++ right).store (base.move k a) v = .ok (left ++ m' ++ right) := by
  unfold Storage.Holds at hin
  unfold Storage.move
  by_cases hk : k = .string
  · subst hk
    obtain ⟨s, rfl⟩ : ∃ s, v = .string s := by cases v <;> cases hv; exact ⟨_, rfl⟩
    rw [if_pos rfl, ← hm.slots] at hin
    have hsize : a + left.strings.size < (left ++ m ++ right).strings.size := by
      rw [strings_append, strings_append, Array.size_append, Array.size_append]
      omega
    refine ⟨_, store_string s hin, ?_⟩
    rw [if_pos rfl, ← hleft.slots, store_string s hsize]
    congr 2
    show (left.strings ++ m.strings ++ right.strings).setIfInBounds _ _ =
      left.strings ++ m.strings.setIfInBounds a s ++ right.strings
    rw [Array.setIfInBounds_append_left (by rw [Array.size_append]; omega),
      Array.setIfInBounds_append_right (by omega), Nat.add_sub_cancel]
  · rw [if_neg hk, ← hm.bytes] at hin
    have hsize : a + left.bytes.size + k.size ≤ (left ++ m ++ right).bytes.size := by
      rw [bytes_append, bytes_append, Array.size_append, Array.size_append]
      omega
    refine ⟨_, store_eq hv hk hin, ?_⟩
    rw [if_neg hk, ← hleft.bytes, store_eq hv hk hsize]
    congr 2
    rw [← Value.length_bytes hv] at hin
    exact write_between _ _ _ _ hin

end Memory

end HostScript
