import Mathlib.Data.List.GetD
import Mathlib.Data.Nat.Digits.Lemmas

/-!
# Numerals

Numbers written in base `r` with the symbols of an alphabet, highest place first.

* `write`, `read` : the numeral of a number, and the number a text stands for;
* `read_write`, `read_padded` : a numeral reads back as its number, also behind zeros;
* `length_write_le`, `mem_write`, `head_write` : its length, its symbols, and no zero in front;
* `readSigned` : with a sign.
-/

namespace Numeral
variable {α : Type} {alphabet : List α} {blank : α} {r v : Nat}

/-- The places of `v`, highest first; one for zero. -/
def places (r v : Nat) : List Nat := if v = 0 then [0] else (Nat.digits r v).reverse

/-- The numeral of `v` in base `r`. -/
def write (alphabet : List α) (blank : α) (r v : Nat) : List α := (places r v).map (alphabet.getD · blank)

theorem places_ne_nil (r v : Nat) : places r v ≠ [] := by
  unfold places
  split_ifs with h0
  · exact List.cons_ne_nil _ _
  · rw [Ne, List.reverse_eq_nil_iff]
    exact Nat.digits_ne_nil_iff_ne_zero.mpr h0

theorem places_lt (hr : 2 ≤ r) {d : Nat} (hd : d ∈ places r v) : d < r := by
  unfold places at hd
  split_ifs at hd
  · rw [List.mem_singleton.mp hd]
    exact Nat.lt_of_lt_of_le Nat.zero_lt_two hr
  · exact Nat.digits_lt_base hr (List.mem_reverse.mp hd)

theorem foldl_places (r v : Nat) : (places r v).foldl (fun v d => v * r + d) 0 = v := by
  unfold places
  split_ifs with h0
  · rw [h0]
    exact Nat.zero_mul r
  · have hstep : (fun (d y : Nat) => y * r + d) = fun d y => d + r * y := by
      funext d y
      rw [Nat.add_comm, Nat.mul_comm]
    rw [List.foldl_reverse, hstep]
    exact (Nat.ofDigits_eq_foldr r (Nat.digits r v)).symm.trans (Nat.ofDigits_digits r v)

theorem foldl_zeros (r n : Nat) : (List.replicate n 0).foldl (fun v d => v * r + d) 0 = 0 := by
  induction n with
  | zero => rfl
  | succ n ih =>
    rw [List.replicate_succ, List.foldl_cons, Nat.zero_mul]
    exact ih

/-- A number below `r ^ n` takes at most `n` places. -/
theorem length_write_le (hr : 2 ≤ r) {n : Nat} (hn : 0 < n) (hv : v < r ^ n) :
    (write alphabet blank r v).length ≤ n := by
  unfold write places
  rw [List.length_map]
  split_ifs
  · exact hn
  · rw [List.length_reverse]
    exact (Nat.digits_length_le_iff hr v).mpr hv

theorem length_write_pos : 0 < (write alphabet blank r v).length := by
  unfold write
  rw [List.length_map]
  exact List.length_pos_iff.mpr (places_ne_nil r v)

/-- Only the first `r` symbols are used. -/
theorem mem_write (hr : 2 ≤ r) (hlen : r ≤ alphabet.length) {c : α} (hc : c ∈ write alphabet blank r v) :
    c ∈ alphabet.take r := by
  obtain ⟨d, hd, rfl⟩ := List.mem_map.mp hc
  have hlt := places_lt hr hd
  rw [List.getD_eq_getElem _ _ (Nat.lt_of_lt_of_le hlt hlen)]
  exact List.mem_take_iff_getElem.mpr ⟨d, Nat.lt_min.mpr ⟨hlt, Nat.lt_of_lt_of_le hlt hlen⟩, rfl⟩

theorem getD_inj (hnodup : alphabet.Nodup) {i j : Nat} (hi : i < alphabet.length) (hj : j < alphabet.length)
    (h : alphabet.getD i blank = alphabet.getD j blank) : i = j := by
  rw [List.getD_eq_getElem _ _ hi, List.getD_eq_getElem _ _ hj] at h
  exact hnodup.getElem_inj_iff.mp h

/-- A numeral starts with a zero for zero only. -/
theorem head_write (hr : 2 ≤ r) (hlen : r ≤ alphabet.length) (hnodup : alphabet.Nodup)
    (h : (write alphabet blank r v).head? = some (alphabet.getD 0 blank)) : v = 0 := by
  by_contra h0
  unfold write at h
  rw [List.head?_map] at h
  obtain ⟨d, hd, hsymbol⟩ := Option.map_eq_some_iff.mp h
  have hlt := places_lt hr (List.mem_of_mem_head? hd)
  obtain rfl : d = 0 := getD_inj hnodup (by omega) (by omega) hsymbol
  unfold places at hd
  rw [if_neg h0, List.head?_reverse, List.getLast?_eq_getLast_of_ne_nil (Nat.digits_ne_nil_iff_ne_zero.mpr h0)] at hd
  exact Nat.getLast_digit_ne_zero r h0 (Option.some.inj hd)

section Read
variable [DecidableEq α]

/-- The number `v` with the symbols of a text behind it. -/
def readFrom (alphabet : List α) (r : Nat) : Nat → List α → Option Nat
  | v, [] => some v
  | v, c :: text => if alphabet.idxOf c < r then readFrom alphabet r (v * r + alphabet.idxOf c) text else none

/-- The number that a text stands for in base `r`; none for an empty text and for other symbols. -/
def read (alphabet : List α) (r : Nat) : List α → Option Nat
  | [] => none
  | c :: text => readFrom alphabet r 0 (c :: text)

theorem read_of_ne_nil {text : List α} (h : text ≠ []) : read alphabet r text = readFrom alphabet r 0 text := by
  cases text with
  | nil => exact absurd rfl h
  | cons c text => rfl

theorem readFrom_map (hlen : r ≤ alphabet.length) (hnodup : alphabet.Nodup) {ds : List Nat}
    (hds : ∀ d ∈ ds, d < r) (v : Nat) :
    readFrom alphabet r v (ds.map (alphabet.getD · blank)) = some (ds.foldl (fun v d => v * r + d) v) := by
  induction ds generalizing v with
  | nil => rfl
  | cons d ds ih =>
    obtain ⟨hd, hds⟩ := List.forall_mem_cons.mp hds
    have hlt : d < alphabet.length := Nat.lt_of_lt_of_le hd hlen
    have hidx : alphabet.idxOf (alphabet.getD d blank) = d := by
      rw [List.getD_eq_getElem _ _ hlt]
      exact hnodup.idxOf_getElem d hlt
    rw [List.map_cons, readFrom, hidx, if_pos hd, ih hds, List.foldl_cons]

/-- A numeral reads back as its number, behind any number of zeros. -/
theorem read_padded (hr : 2 ≤ r) (hlen : r ≤ alphabet.length) (hnodup : alphabet.Nodup) (n v : Nat) :
    read alphabet r (List.replicate n (alphabet.getD 0 blank) ++ write alphabet blank r v) = some v := by
  have hzeros : List.replicate n (alphabet.getD 0 blank) ++ write alphabet blank r v =
      (List.replicate n 0 ++ places r v).map (alphabet.getD · blank) := by
    rw [List.map_append, List.map_replicate]
    rfl
  have hplaces : ∀ d ∈ List.replicate n 0 ++ places r v, d < r := by
    intro d hd
    rcases List.mem_append.mp hd with hd | hd
    · rw [List.eq_of_mem_replicate hd]
      omega
    · exact places_lt hr hd
  have hne : List.replicate n (alphabet.getD 0 blank) ++ write alphabet blank r v ≠ [] := by
    intro hnil
    exact absurd (List.append_eq_nil_iff.mp hnil).2 (List.ne_nil_of_length_pos length_write_pos)
  rw [read_of_ne_nil hne, hzeros, readFrom_map hlen hnodup hplaces, List.foldl_append, foldl_zeros,
    foldl_places]

theorem read_write (hr : 2 ≤ r) (hlen : r ≤ alphabet.length) (hnodup : alphabet.Nodup) (v : Nat) :
    read alphabet r (write alphabet blank r v) = some v := read_padded hr hlen hnodup 0 v

/-- The integer that a text stands for, `minus` in front of the negative ones. -/
def readSigned (alphabet : List α) (r : Nat) (minus : α) : List α → Option Int
  | [] => none
  | c :: text =>
    if c = minus then (read alphabet r text).map fun (v : Nat) => -(v : Int)
    else (read alphabet r (c :: text)).map fun (v : Nat) => (v : Int)

theorem readSigned_minus (hr : 2 ≤ r) (hlen : r ≤ alphabet.length) (hnodup : alphabet.Nodup) (minus : α) (v : Nat) :
    readSigned alphabet r minus (minus :: write alphabet blank r v) = some (-(v : Int)) := by
  rw [readSigned, if_pos rfl, read_write hr hlen hnodup, Option.map_some]

theorem readSigned_write (hr : 2 ≤ r) (hlen : r ≤ alphabet.length) (hnodup : alphabet.Nodup) {minus : α}
    (hminus : minus ∉ alphabet) (v : Nat) :
    readSigned alphabet r minus (write alphabet blank r v) = some (v : Int) := by
  have hread : read alphabet r (write alphabet blank r v) = some v := read_write hr hlen hnodup v
  have hmem : ∀ c ∈ write alphabet blank r v, c ∈ alphabet := fun c hc => List.mem_of_mem_take (mem_write hr hlen hc)
  cases hw : write alphabet blank r v with
  | nil =>
    rw [hw] at hread
    cases hread
  | cons c text =>
    rw [hw] at hread hmem
    have hne : c ≠ minus := fun h => hminus (h ▸ hmem c List.mem_cons_self)
    rw [readSigned, if_neg hne, hread, Option.map_some]

end Read

end Numeral
