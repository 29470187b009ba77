import Mathlib.Data.List.GetD
import Mathlib.Tactic

/-!
# A list kept in an array

`Holds blank n buf l` : the first `n` places of `buf` hold the list `l`, with blanks after it.

* `Holds.push`, `Holds.pop`, `Holds.nil` : what a store after the end, a blank over the last place and an
  array of blanks hold; `Holds.replace` : another end of the list;
* `Holds.map_range` : the array read from its start.
-/

namespace LineBuffer
variable {α : Type} {blank : α} {n : Nat} {buf : Nat → α} {l : List α}

/-- The first `n` places of `buf` hold `l`, and then blanks. -/
def Holds (blank : α) (n : Nat) (buf : Nat → α) (l : List α) : Prop :=
  l.length ≤ n ∧ ∀ i, i < n → buf i = l.getD i blank

theorem Holds.nil (h : ∀ i, i < n → buf i = blank) : Holds blank n buf [] := ⟨Nat.zero_le n, h⟩

theorem Holds.push (h : Holds blank n buf l) (hl : l.length < n) (c : α) :
    Holds blank n (Function.update buf l.length c) (l ++ [c]) := by
  refine ⟨by rw [List.length_append]; exact hl, fun i hi => ?_⟩
  rw [Function.update_apply]
  split_ifs with hc
  · rw [hc, List.getD_append_right _ _ _ _ (le_refl _), Nat.sub_self]
    rfl
  · rw [h.2 i hi]
    rcases Nat.lt_or_gt_of_ne hc with hlt | hgt
    · rw [List.getD_append _ _ _ _ hlt]
    · rw [List.getD_eq_default _ _ (by omega), List.getD_eq_default _ _ (by simp; omega)]

theorem Holds.pop (h : Holds blank n buf l) :
    Holds blank n (Function.update buf (l.length - 1) blank) l.dropLast := by
  refine ⟨by rw [List.length_dropLast]; have := h.1; omega, fun i hi => ?_⟩
  rw [Function.update_apply]
  split_ifs with hc
  · rw [List.getD_eq_default _ _ (by rw [List.length_dropLast]; omega)]
  · rw [h.2 i hi]
    by_cases hlt : i < l.length - 1
    · rw [List.getD_eq_getElem _ _ (by omega), List.getD_eq_getElem _ _ (by rw [List.length_dropLast]; exact hlt),
        List.getElem_dropLast]
    · rw [List.getD_eq_default _ _ (by omega), List.getD_eq_default _ _ (by rw [List.length_dropLast]; omega)]

/-- The end of the list is stored over, with a blank behind it, by one that is not shorter. -/
theorem Holds.replace {before w best : List α} (h : Holds blank n buf (before ++ w)) (hlong : w.length ≤ best.length)
    (hfits : (before ++ best).length < n) :
    Holds blank n (fun i => if before.length ≤ i ∧ i < before.length + (best.length + 1) then
      best.getD (i - before.length) blank else buf i) (before ++ best) := by
  refine ⟨hfits.le, fun i hi => ?_⟩
  dsimp only
  split_ifs with hin
  · rw [List.getD_append_right _ _ _ _ hin.1]
  · rw [h.2 i hi]
    by_cases hb : i < before.length
    · rw [List.getD_append _ _ _ _ hb, List.getD_append _ _ _ _ hb]
    · rw [List.getD_eq_default _ _ (by rw [List.length_append]; omega),
        List.getD_eq_default _ _ (by rw [List.length_append]; omega)]

/-- Reading the first `m` places of the list. -/
theorem Holds.map_range (h : Holds blank n buf l) {m : Nat} (hm : m ≤ l.length) :
    (List.range m).map buf = l.take m := by
  apply List.ext_getElem (by simp [hm])
  intro i hi _
  have him : i < m := by simpa using hi
  have hl := h.1
  rw [List.getElem_map, List.getElem_range, h.2 i (by omega), List.getElem_take,
    List.getD_eq_getElem _ _ (by omega)]

end LineBuffer
