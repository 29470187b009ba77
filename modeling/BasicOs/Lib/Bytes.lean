import Mathlib.Data.List.GetD
import Mathlib.Data.List.TakeWhile
import Mathlib.Tactic

/-!
# Bytes, machine words and C strings

Memories are total functions from addresses to bytes.

* `u32` : arithmetic of 32-bit unsigned values;
* `load32` : a little-endian word of a memory, and the bytes it is made of;
* `intByte`, `setIntByte` : the bytes of a 32-bit signed integer;
* `strnlen`, `strncpy`, `cstr` : NUL-terminated strings, read from a memory or kept as a list;
* `storeAll` : a list of consecutive byte stores.
-/

namespace Bytes

/-- Reduction modulo `2^32`: the value a 32-bit unsigned expression has. -/
def u32 (n : Nat) : Nat := n % 2 ^ 32

/-- A 32-bit signed value: reduction modulo `2^32` into `[-2^31, 2^31)`. -/
def i32 (v : Int) : Int := (v + 2 ^ 31) % 2 ^ 32 - 2 ^ 31

/-! ## Little-endian words -/

/-- The little-endian 32-bit word at `a`. -/
def load32 (m : Nat → UInt8) (a : Nat) : Nat :=
  (m (u32 a)).toNat + 256 * (m (u32 (a + 1))).toNat + 65536 * (m (u32 (a + 2))).toNat +
    16777216 * (m (u32 (a + 3))).toNat

theorem u32_u32_add (a b : Nat) : u32 (u32 a + b) = u32 (a + b) := by
  unfold u32
  omega

theorem load32_u32 (m : Nat → UInt8) (a : Nat) : load32 m (u32 a) = load32 m a := by
  have h := u32_u32_add a 0
  rw [Nat.add_zero, Nat.add_zero] at h
  simp only [load32, u32_u32_add, h]

theorem load32_lt (m : Nat → UInt8) (a : Nat) : load32 m a < 2 ^ 32 := by
  have h0 := (m (u32 a)).toNat_lt
  have h1 := (m (u32 (a + 1))).toNat_lt
  have h2 := (m (u32 (a + 2))).toNat_lt
  have h3 := (m (u32 (a + 3))).toNat_lt
  unfold load32
  omega

theorem load32_byte (m : Nat → UInt8) (a : Nat) {j : Nat} (hj : j < 4) :
    UInt8.ofNat (load32 m a / 256 ^ j) = m (u32 (a + j)) := by
  have h0 := (m (u32 a)).toNat_lt
  have h1 := (m (u32 (a + 1))).toNat_lt
  have h2 := (m (u32 (a + 2))).toNat_lt
  have h3 := (m (u32 (a + 3))).toNat_lt
  apply UInt8.toNat_inj.mp
  rw [UInt8.toNat_ofNat']
  unfold load32
  obtain rfl | rfl | rfl | rfl : j = 0 ∨ j = 1 ∨ j = 2 ∨ j = 3 := by omega
  all_goals norm_num only [Nat.add_zero]; omega

/-- Byte `j` of a 32-bit signed value in two's complement. -/
def intByte (v : Int) (j : Nat) : UInt8 := UInt8.ofNat (v / 256 ^ j % 256).toNat

/-- `v` with its byte `j` replaced by `c`. -/
def setIntByte (v : Int) (j : Nat) (c : UInt8) : Int :=
  i32 (v - v / 256 ^ j % 256 * 256 ^ j + c.toNat * 256 ^ j)

/-- A store into one byte leaves the lower ones. -/
theorem intByte_setIntByte_of_lt (v : Int) {i j : Nat} (hj : j < i) (hi : i < 4) (c : UInt8) :
    intByte (setIntByte v i c) j = intByte v j := by
  unfold intByte setIntByte i32
  congr 2
  obtain ⟨rfl, rfl⟩ | ⟨rfl, rfl⟩ | ⟨rfl, rfl⟩ | ⟨rfl, rfl⟩ | ⟨rfl, rfl⟩ | ⟨rfl, rfl⟩ :
    i = 1 ∧ j = 0 ∨ i = 2 ∧ j = 0 ∨ i = 2 ∧ j = 1 ∨ i = 3 ∧ j = 0 ∨ i = 3 ∧ j = 1 ∨ i = 3 ∧ j = 2 := by omega
  all_goals norm_num only; omega

/-- A store into one byte of a value that is not negative, of a byte below 128. -/
theorem setIntByte_bounds {v : Int} (h0 : 0 ≤ v) (hv : v < 2 ^ 31) {j : Nat} (hj : j < 4) {c : UInt8}
    (hc : c.toNat < 128) :
    0 ≤ setIntByte v j c ∧ setIntByte v j c < 2 ^ 31 ∧ setIntByte v j c ≤ v + c.toNat * 256 ^ 3 := by
  unfold setIntByte i32
  obtain rfl | rfl | rfl | rfl : j = 0 ∨ j = 1 ∨ j = 2 ∨ j = 3 := by omega
  all_goals norm_num only at *; omega

/-! ## C strings -/

/-- The number of bytes before the first NUL among the first `n` bytes of `s`, `n` if there is none. -/
def strnlen (s : Nat → UInt8) : Nat → Nat
  | 0 => 0
  | n + 1 => if s 0 = 0 then 0 else strnlen (fun i => s (i + 1)) n + 1

/-- What `strncpy(dest, s, n)` leaves in the first `n` bytes of `dest`: the string, then NULs. -/
def strncpy (s : Nat → UInt8) (n : Nat) : Nat → UInt8 := fun i => if i < strnlen s n then s i else 0

/-- The memory a pointer to the list's bytes sees: NULs after the end. -/
def ofList (l : List UInt8) : Nat → UInt8 := fun i => l.getD i 0

/-- The C string a list of bytes holds: what stands before its first NUL. -/
def cstr (l : List UInt8) : List UInt8 := l.takeWhile (· ≠ 0)

/-- The first `n` bytes of a memory. -/
def bytesAt (s : Nat → UInt8) (n : Nat) : List UInt8 := (List.range n).map s

theorem cstr_cons (c : UInt8) (l : List UInt8) : cstr (c :: l) = if c = 0 then [] else c :: cstr l := by
  unfold cstr
  by_cases h : c = 0 <;> simp [h]

theorem cstr_length_le (l : List UInt8) : (cstr l).length ≤ l.length := (List.takeWhile_sublist _).length_le

theorem bytesAt_succ (s : Nat → UInt8) (n : Nat) : bytesAt s (n + 1) = s 0 :: bytesAt (fun i => s (i + 1)) n := by
  simp [bytesAt, List.range_succ_eq_map, Function.comp_def]

theorem strnlen_eq (s : Nat → UInt8) (n : Nat) : strnlen s n = (cstr (bytesAt s n)).length := by
  induction n generalizing s with
  | zero => rfl
  | succ n ih =>
    rw [bytesAt_succ, cstr_cons, strnlen, ih]
    split_ifs <;> rfl

theorem le_strnlen {s : Nat → UInt8} {n m : Nat} (hm : m ≤ n) (hne : ∀ i, i < m → s i ≠ 0) : m ≤ strnlen s n := by
  induction n generalizing s m with
  | zero => exact hm
  | succ n ih =>
    cases m with
    | zero => exact Nat.zero_le _
    | succ m =>
      rw [strnlen, if_neg (hne 0 (Nat.succ_pos m))]
      exact Nat.succ_le_succ (ih (Nat.le_of_succ_le_succ hm) fun i hi => hne (i + 1) (Nat.succ_lt_succ hi))

theorem strnlen_eq_of_zero {s : Nat → UInt8} {n m : Nat} (hm : m < n) (hne : ∀ i, i < m → s i ≠ 0) (h0 : s m = 0) :
    strnlen s n = m := by
  induction n generalizing s m with
  | zero => exact absurd hm (Nat.not_lt_zero m)
  | succ n ih =>
    cases m with
    | zero => rw [strnlen, if_pos h0]
    | succ m =>
      rw [strnlen, if_neg (hne 0 (Nat.succ_pos m)),
        ih (Nat.lt_of_succ_lt_succ hm) (fun i hi => hne (i + 1) (Nat.succ_lt_succ hi)) h0]

theorem strnlen_le (s : Nat → UInt8) (n : Nat) : strnlen s n ≤ n := by
  induction n generalizing s with
  | zero => exact le_refl 0
  | succ n ih =>
    rw [strnlen]
    split_ifs
    · exact Nat.zero_le _
    · exact Nat.succ_le_succ (ih _)

/-- The string ends before `n`, or its first `n` bytes have no NUL. -/
theorem strnlen_cases (s : Nat → UInt8) (n : Nat) :
    (strnlen s n < n ∧ s (strnlen s n) = 0 ∧ ∀ i, i < strnlen s n → s i ≠ 0) ∨
      strnlen s n = n ∧ ∀ i, i < n → s i ≠ 0 := by
  induction n generalizing s with
  | zero => exact Or.inr ⟨rfl, fun i hi => absurd hi (Nat.not_lt_zero i)⟩
  | succ n ih =>
    rw [strnlen]
    split_ifs with h0
    · exact Or.inl ⟨Nat.succ_pos n, h0, fun i hi => absurd hi (Nat.not_lt_zero i)⟩
    · have hsucc : ∀ m, (∀ i, i < m → s (i + 1) ≠ 0) → ∀ i, i < m + 1 → s i ≠ 0 := by
        intro m hm i hi
        cases i with
        | zero => exact h0
        | succ i => exact hm i (Nat.lt_of_succ_lt_succ hi)
      rcases ih fun i => s (i + 1) with ⟨hlt, hz, hne⟩ | ⟨he, hne⟩
      · exact Or.inl ⟨Nat.succ_lt_succ hlt, hz, hsucc _ hne⟩
      · exact Or.inr ⟨by rw [he], hsucc _ hne⟩

theorem strnlen_le_of_zero {s : Nat → UInt8} {m : Nat} (h0 : s m = 0) (n : Nat) : strnlen s n ≤ m := by
  by_contra hlt
  rcases strnlen_cases s n with ⟨-, -, hne⟩ | ⟨hlen, hne⟩
  · exact hne m (by omega) h0
  · exact hne m (by omega) h0

theorem strnlen_congr {s s' : Nat → UInt8} {n : Nat} (h : ∀ i, i < n → s i = s' i) : strnlen s n = strnlen s' n := by
  induction n generalizing s s' with
  | zero => rfl
  | succ n ih =>
    rw [strnlen, strnlen, h 0 (Nat.succ_pos n), ih fun i hi => h (i + 1) (Nat.succ_lt_succ hi)]

theorem strncpy_congr {s s' : Nat → UInt8} {n : Nat} (h : ∀ i, i < n → s i = s' i) : strncpy s n = strncpy s' n := by
  funext i
  have hle := strnlen_le s' n
  unfold strncpy
  rw [strnlen_congr h]
  split_ifs with hi
  · exact h i (lt_of_lt_of_le hi hle)
  · rfl

/-- A longer look, clamped, sees the same length. -/
theorem min_strnlen {s : Nat → UInt8} {n m : Nat} (h : n ≤ m) : min (strnlen s m) n = strnlen s n := by
  induction n generalizing s m with
  | zero => exact Nat.min_zero _
  | succ n ih =>
    obtain ⟨m, rfl⟩ : ∃ l, m = l + 1 := ⟨m - 1, by omega⟩
    rw [strnlen, strnlen]
    split_ifs
    · exact Nat.zero_min _
    · rw [← ih (Nat.le_of_succ_le_succ h), Nat.add_min_add_right]

theorem bytesAt_congr {s t : Nat → UInt8} {n : Nat} (h : ∀ i < n, s i = t i) : bytesAt s n = bytesAt t n := by
  apply List.map_congr_left
  intro i hi
  exact h i (List.mem_range.mp hi)

theorem ofList_bytesAt (s : Nat → UInt8) {n i : Nat} (h : i < n) : ofList (bytesAt s n) i = s i := by
  simp [ofList, bytesAt, h]

theorem ofList_eq_iff {a b : List UInt8} (ha : 0 ∉ a) (hb : 0 ∉ b) (i : Nat) :
    ofList a i = ofList b i ↔ a[i]? = b[i]? := by
  have hne : ∀ {l : List UInt8} {i : Nat} (hi : i < l.length), 0 ∉ l → l[i] ≠ 0 :=
    fun hi h0 h => h0 (h ▸ List.getElem_mem hi)
  unfold ofList
  rw [List.getD_eq_getElem?_getD, List.getD_eq_getElem?_getD]
  by_cases hia : i < a.length
  · by_cases hib : i < b.length
    · simp [hia, hib]
    · simp [hia, hib, hne hia ha]
  · by_cases hib : i < b.length
    · simpa [hia, hib] using (hne hib hb).symm
    · simp [hia, hib]

theorem zero_notMem_cstr (l : List UInt8) : 0 ∉ cstr l := by
  intro hmem
  simpa using List.mem_takeWhile_imp hmem

theorem cstr_eq_self {l : List UInt8} (h : 0 ∉ l) : cstr l = l := by
  apply List.takeWhile_eq_self_iff.mpr
  intro c hc
  simpa using fun h0 : c = 0 => h (h0 ▸ hc)

theorem cstr_cstr (l : List UInt8) : cstr (cstr l) = cstr l := List.takeWhile_idem

/-- Reading at most `n` bytes of a string kept as a list. -/
theorem cstr_bytesAt_ofList (l : List UInt8) (n : Nat) : cstr (bytesAt (ofList l) n) = (cstr l).take n := by
  induction n generalizing l with
  | zero => rfl
  | succ n ih =>
    rw [bytesAt_succ]
    cases l with
    | nil => rfl
    | cons c l =>
      have htail : (fun i => ofList (c :: l) (i + 1)) = ofList l := by
        funext i
        simp [ofList]
      rw [htail, show ofList (c :: l) 0 = c from rfl, cstr_cons, cstr_cons, ih]
      split_ifs <;> rfl

theorem cstr_eq_nil_iff (l : List UInt8) : cstr l = [] ↔ ofList l 0 = 0 := by
  cases l with
  | nil => exact ⟨fun _ => rfl, fun _ => rfl⟩
  | cons c l =>
    rw [cstr_cons, show ofList (c :: l) 0 = c from rfl]
    split_ifs with h <;> simp [h]

/-- What `strncpy` copies of a string kept as a list. -/
theorem strncpy_ofList (l : List UInt8) (n : Nat) : strncpy (ofList l) n = ofList ((cstr l).take n) := by
  have hlen : strnlen (ofList l) n = ((cstr l).take n).length := by rw [strnlen_eq, cstr_bytesAt_ofList]
  have hpre : (cstr l).take n <+: l := (List.take_prefix _ _).trans (List.takeWhile_prefix _)
  funext i
  unfold strncpy
  rw [hlen]
  split_ifs with h
  · have hl := hpre.length_le
    rw [ofList, ofList, List.getD_eq_getElem _ _ h, List.getD_eq_getElem _ _ (by omega), hpre.getElem h]
  · rw [ofList, List.getD_eq_default _ _ (by omega)]

/-- What `strncpy` copies of the string that a memory holds. -/
theorem strncpy_eq_ofList (s : Nat → UInt8) (n : Nat) : strncpy s n = ofList (cstr (bytesAt s n)) := by
  have hsame : strncpy s n = strncpy (ofList (bytesAt s n)) n := strncpy_congr fun i hi => (ofList_bytesAt s hi).symm
  have hlen : (cstr (bytesAt s n)).length ≤ n := by
    rw [← strnlen_eq]
    exact strnlen_le s n
  rw [hsame, strncpy_ofList, List.take_of_length_le hlen]

/-! ## Stores -/

/-- The memory after storing the bytes of `l` from address `a` on. -/
def storeAll (m : Nat → UInt8) (a : Nat) (l : List UInt8) : Nat → UInt8 :=
  fun b => if a ≤ b ∧ b < a + l.length then l.getD (b - a) 0 else m b

theorem storeAll_nil (m : Nat → UInt8) (a : Nat) : storeAll m a [] = m := by
  funext b
  exact if_neg (by rw [List.length_nil]; omega)

theorem storeAll_cons (m : Nat → UInt8) (a : Nat) (c : UInt8) (l : List UInt8) :
    storeAll (Function.update m a c) (a + 1) l = storeAll m a (c :: l) := by
  funext b
  unfold storeAll
  rw [List.length_cons]
  by_cases hb : b = a
  · rw [if_neg (by omega), if_pos (by omega), hb, Function.update_self, Nat.sub_self, List.getD_cons_zero]
  · rw [Function.update_of_ne hb]
    by_cases hin : a + 1 ≤ b ∧ b < a + 1 + l.length
    · rw [if_pos hin, if_pos (by omega), show b - a = b - (a + 1) + 1 by omega, List.getD_cons_succ]
    · rw [if_neg hin, if_neg (by omega)]

/-- The stores stay within `n` bytes from `a` on, whatever was there, exactly if there are no more than `n`. -/
theorem storeAll_frame_iff (l : List UInt8) (n : Nat) :
    (∀ (m : Nat → UInt8) (a b : Nat), b < a ∨ a + n ≤ b → storeAll m a l b = m b) ↔ l.length ≤ n := by
  constructor
  · intro h
    by_contra hlt
    -- a memory that holds another byte where byte `n` of the list goes
    have hbyte := h (fun _ => l.getD n 0 + 1) 0 n (Or.inr (by omega))
    rw [storeAll, if_pos (by omega), Nat.sub_zero] at hbyte
    exact absurd hbyte (by simp)
  · intro h m a b hb
    rw [storeAll, if_neg (by omega)]

end Bytes
