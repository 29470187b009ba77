import Mathlib.Data.List.GetD
import Mathlib.Logic.Function.Basic
import Mathlib.Tactic

/-!
# Copying bytes in a 32-bit memory

Memories are functions of a 32-bit address, and address arithmetic wraps.

* `loadBytes`, `storeBytes` : several bytes at consecutive addresses;
* `Apart` : no byte of the source range is one of the destination range;
* `Copied` : the first `i` bytes have been copied and nothing else was stored; `Copied.block` : the next ones.
-/

namespace ByteCopy

abbrev Addr : Type := BitVec 32

abbrev Mem : Type := Addr → UInt8

/-- Byte `j` of the range at `a`. -/
def byteAddr (a : Addr) (j : Nat) : Addr := a + BitVec.ofNat 32 j

def loadBytes (m : Mem) (a : Addr) (n : Nat) : List UInt8 := (List.range n).map fun j => m (byteAddr a j)

/-- The bytes of a list go to consecutive addresses. -/
def storeBytes : Mem → Addr → List UInt8 → Mem
  | m, _, [] => m
  | m, a, c :: l => storeBytes (Function.update m a c) (a + 1) l

theorem byteAddr_zero (a : Addr) : byteAddr a 0 = a := BitVec.add_zero a

theorem byteAddr_byteAddr (a : Addr) (i j : Nat) : byteAddr (byteAddr a i) j = byteAddr a (i + j) := by
  unfold byteAddr
  rw [BitVec.ofNat_add, BitVec.add_assoc]

theorem byteAddr_succ (a : Addr) (j : Nat) : byteAddr (a + 1) j = byteAddr a (j + 1) := by
  rw [show a + 1 = byteAddr a 1 from rfl, byteAddr_byteAddr, Nat.add_comm]

theorem byteAddr_inj (a : Addr) {i j : Nat} (hi : i < 2 ^ 32) (hj : j < 2 ^ 32) :
    byteAddr a i = byteAddr a j ↔ i = j := by
  unfold byteAddr
  rw [BitVec.add_right_inj]
  constructor
  · intro h
    have hnat := congrArg BitVec.toNat h
    rwa [BitVec.toNat_ofNat, BitVec.toNat_ofNat, Nat.mod_eq_of_lt hi, Nat.mod_eq_of_lt hj] at hnat
  · exact fun h => h ▸ rfl

/-- A range that does not wrap. -/
theorem toNat_byteAddr {a : Addr} {j : Nat} (h : a.toNat + j < 2 ^ 32) : (byteAddr a j).toNat = a.toNat + j := by
  unfold byteAddr
  rw [BitVec.toNat_add, BitVec.toNat_ofNat, Nat.mod_eq_of_lt (show j < 2 ^ 32 by omega), Nat.mod_eq_of_lt h]

theorem storeBytes_outside {m : Mem} {a b : Addr} {l : List UInt8} (h : ∀ j < l.length, b ≠ byteAddr a j) :
    storeBytes m a l b = m b := by
  induction l generalizing m a with
  | nil => rfl
  | cons c l ih =>
    have hfirst : b ≠ a := by
      rw [← byteAddr_zero a]
      exact h 0 (Nat.succ_pos _)
    rw [storeBytes, ih fun j hj => by rw [byteAddr_succ]; exact h (j + 1) (Nat.succ_lt_succ hj)]
    exact Function.update_of_ne hfirst _ _

theorem storeBytes_inside {m : Mem} {a : Addr} {l : List UInt8} (hl : l.length ≤ 2 ^ 32) {j : Nat}
    (hj : j < l.length) : storeBytes m a l (byteAddr a j) = l.getD j 0 := by
  induction l generalizing m a j with
  | nil => exact absurd hj (Nat.not_lt_zero j)
  | cons c l ih =>
    rw [List.length_cons] at hl hj
    rw [storeBytes]
    cases j with
    | zero =>
      have hother : ∀ i < l.length, byteAddr a 0 ≠ byteAddr (a + 1) i := by
        intro i hi h
        rw [byteAddr_succ, byteAddr_inj a (by decide) (by omega)] at h
        omega
      rw [storeBytes_outside hother, byteAddr_zero, Function.update_self]
      rfl
    | succ j =>
      rw [← byteAddr_succ, ih (by omega) (Nat.lt_of_succ_lt_succ hj)]
      rfl

/-! ## Copies -/

variable {m₀ m : Mem} {dest src : Addr} {n i k : Nat}

/-- No byte of the `n` at `src` is one of those at `dest`. -/
def Apart (dest src : Addr) (n : Nat) : Prop := ∀ i < n, ∀ j < n, byteAddr src i ≠ byteAddr dest j

/-- `m` is `m₀` with the first `i` bytes at `src` copied to `dest`. -/
structure Copied (m₀ : Mem) (dest src : Addr) (i : Nat) (m : Mem) : Prop where
  copied : ∀ j < i, m (byteAddr dest j) = m₀ (byteAddr src j)
  frame : ∀ a, (∀ j < i, a ≠ byteAddr dest j) → m a = m₀ a

theorem Copied.start (m₀ : Mem) (dest src : Addr) : Copied m₀ dest src 0 m₀ where
  copied j hj := absurd hj (Nat.not_lt_zero j)
  frame _ _ := rfl

/-- The next `k` bytes, all of them loaded before the first is stored. -/
theorem Copied.block (h : Copied m₀ dest src i m) (hapart : Apart dest src n) (hn : n ≤ 2 ^ 32) (hik : i + k ≤ n) :
    Copied m₀ dest src (i + k) (storeBytes m (byteAddr dest i) (loadBytes m (byteAddr src i) k)) := by
  have hlength : (loadBytes m (byteAddr src i) k).length = k := by
    unfold loadBytes
    rw [List.length_map, List.length_range]
  refine ⟨fun j hj => ?_, fun a ha => ?_⟩
  · by_cases hlt : j < i
    · rw [storeBytes_outside fun l hl => ?_, h.copied j hlt]
      rw [byteAddr_byteAddr, Ne, byteAddr_inj dest (by omega) (by omega)]
      omega
    · have hadd : byteAddr dest j = byteAddr (byteAddr dest i) (j - i) := by
        rw [byteAddr_byteAddr, Nat.add_sub_cancel' (Nat.le_of_not_lt hlt)]
      have hload : (loadBytes m (byteAddr src i) k).getD (j - i) 0 = m (byteAddr src j) := by
        unfold loadBytes
        rw [List.getD_eq_getElem _ _ (by rw [List.length_map, List.length_range]; omega), List.getElem_map,
          List.getElem_range, byteAddr_byteAddr, Nat.add_sub_cancel' (Nat.le_of_not_lt hlt)]
      rw [hadd, storeBytes_inside (by omega) (by omega), hload]
      exact h.frame _ fun l hl => hapart j (by omega) l (by omega)
  · rw [storeBytes_outside fun l hl => ?_]
    · exact h.frame a fun j hj => ha j (by omega)
    · rw [byteAddr_byteAddr]
      exact ha (i + l) (by omega)

/-- Ranges that do not wrap and do not overlap. -/
theorem apart_of_disjoint (hdest : dest.toNat + n ≤ 2 ^ 32) (hsrc : src.toNat + n ≤ 2 ^ 32)
    (hdisjoint : dest.toNat + n ≤ src.toNat ∨ src.toNat + n ≤ dest.toNat) : Apart dest src n := by
  intro i hi j hj h
  have hnat := congrArg BitVec.toNat h
  rw [toNat_byteAddr (by omega), toNat_byteAddr (by omega)] at hnat
  omega

end ByteCopy
