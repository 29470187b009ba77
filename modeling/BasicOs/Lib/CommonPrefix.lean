import Mathlib.Data.List.Basic
import Mathlib.Data.List.Infix

/-!
# The longest common prefix of lists

* `commonPrefix a b` : of two lists; it is the greatest prefix of both (`prefix_commonPrefix_iff`), and different lists
  differ right behind it (`getElem?_commonPrefix_ne`);
* `lcp L` : of all lists in `L`; `prefix_lcp_iff`;
* `le_length_lcp_iff` : its length is the least one of two neighbours that differ.
-/

namespace CommonPrefix

variable {α : Type} [DecidableEq α] {a b p : List α} {L : List (List α)}

/-- The longest common prefix of two lists. -/
def commonPrefix : List α → List α → List α
  | x :: a, y :: b => if x = y then x :: commonPrefix a b else []
  | _, _ => []

theorem prefix_commonPrefix_iff : p <+: commonPrefix a b ↔ p <+: a ∧ p <+: b := by
  induction p generalizing a b with
  | nil => exact iff_of_true List.nil_prefix ⟨List.nil_prefix, List.nil_prefix⟩
  | cons z p ih =>
    cases a with
    | nil => simp [commonPrefix]
    | cons x a =>
      cases b with
      | nil => simp [commonPrefix]
      | cons y b =>
        rw [commonPrefix]
        split_ifs with hxy
        · rw [List.cons_prefix_cons, List.cons_prefix_cons, List.cons_prefix_cons, ih, hxy]
          tauto
        · rw [List.cons_prefix_cons, List.cons_prefix_cons]
          refine iff_of_false (by simp) ?_
          rintro ⟨⟨hzx, -⟩, hzy, -⟩
          exact hxy (hzx.symm.trans hzy)

theorem commonPrefix_prefix_left (a b : List α) : commonPrefix a b <+: a :=
  (prefix_commonPrefix_iff.mp List.prefix_rfl).1

theorem commonPrefix_prefix_right (a b : List α) : commonPrefix a b <+: b :=
  (prefix_commonPrefix_iff.mp List.prefix_rfl).2

/-- Before the end of the common prefix the lists agree. -/
theorem getElem?_commonPrefix_eq {i : Nat} (h : i < (commonPrefix a b).length) : a[i]? = b[i]? := by
  have ha := List.prefix_iff_getElem?.mp (commonPrefix_prefix_left a b) i h
  have hb := List.prefix_iff_getElem?.mp (commonPrefix_prefix_right a b) i h
  exact ha.trans hb.symm

/-- At its end different lists differ. -/
theorem getElem?_commonPrefix_ne (h : a ≠ b) :
    a[(commonPrefix a b).length]? ≠ b[(commonPrefix a b).length]? := by
  induction a generalizing b with
  | nil =>
    cases b with
    | nil => exact absurd rfl h
    | cons y b => simp [commonPrefix]
  | cons x a ih =>
    cases b with
    | nil => simp [commonPrefix]
    | cons y b =>
      rw [commonPrefix]
      split_ifs with hxy
      · have hab : a ≠ b := fun hab => h (by rw [hxy, hab])
        rw [List.length_cons, List.getElem?_cons_succ, List.getElem?_cons_succ]
        exact ih hab
      · simpa using hxy

/-- The longest common prefix of the lists in `L`, the empty list if there are none. -/
def lcp : List (List α) → List α
  | [] => []
  | a :: L => L.foldl commonPrefix a

theorem prefix_foldl_iff : p <+: L.foldl commonPrefix a ↔ p <+: a ∧ ∀ b ∈ L, p <+: b := by
  induction L generalizing a with
  | nil => simp
  | cons b L ih =>
    rw [List.foldl_cons, ih, prefix_commonPrefix_iff, List.forall_mem_cons, and_assoc]

theorem prefix_lcp_iff (h : L ≠ []) : p <+: lcp L ↔ ∀ a ∈ L, p <+: a := by
  cases L with
  | nil => exact absurd rfl h
  | cons a L => rw [lcp, prefix_foldl_iff, List.forall_mem_cons]

theorem lcp_prefix_of_mem (h : a ∈ L) : lcp L <+: a := (prefix_lcp_iff (List.ne_nil_of_mem h)).mp List.prefix_rfl a h

theorem lcp_singleton (a : List α) : lcp [a] = a := rfl

/-- If the lists are not all the same, their first `n` elements are common to all if they are common to different
neighbours. -/
theorem le_length_lcp_iff {n : Nat} (h : ∃ a ∈ L, ∃ b ∈ L, a ≠ b) :
    n ≤ (lcp L).length ↔
      ∀ i (hi : i + 1 < L.length), L[i] ≠ L[i + 1] → n ≤ (commonPrefix L[i] L[i + 1]).length := by
  obtain ⟨a, ha, b, hb, hab⟩ := h
  have hne : L ≠ [] := List.ne_nil_of_mem ha
  have hpos := List.length_pos_of_ne_nil hne
  constructor
  · intro hn i hi _
    have hcommon := prefix_commonPrefix_iff.mpr
      ⟨lcp_prefix_of_mem (List.getElem_mem (Nat.lt_of_succ_lt hi)), lcp_prefix_of_mem (List.getElem_mem hi)⟩
    exact hn.trans hcommon.length_le
  · intro hall
    -- the first `n` elements of the first list, from neighbour to neighbour
    have hpre : ∀ i (hi : i < L.length), L[0].take n <+: L[i] ∧ (n ≤ L[0].length ∨ L[i] = L[0]) := by
      intro i
      induction i with
      | zero => exact fun _ => ⟨List.take_prefix _ _, Or.inr rfl⟩
      | succ i ih =>
        intro hi
        obtain ⟨hfirst, hlong⟩ := ih (Nat.lt_of_succ_lt hi)
        by_cases heq : L[i] = L[i + 1]
        · rw [← heq]
          exact ⟨hfirst, hlong⟩
        · have hn := hall i hi heq
          have hcommon : L[0].take n <+: commonPrefix L[i] L[i + 1] :=
            List.prefix_of_prefix_length_le hfirst (commonPrefix_prefix_left _ _)
              ((List.length_take_le _ _).trans hn)
          refine ⟨hcommon.trans (commonPrefix_prefix_right _ _), Or.inl ?_⟩
          rcases hlong with hlong | hlong
          · exact hlong
          · exact hn.trans (hlong ▸ (commonPrefix_prefix_left L[i] L[i + 1]).length_le)
    have hlong : n ≤ L[0].length := by
      by_contra hshort
      have hsame : ∀ c ∈ L, c = L[0] := by
        intro c hc
        obtain ⟨i, hi, rfl⟩ := List.getElem_of_mem hc
        exact (hpre i hi).2.resolve_left hshort
      exact hab ((hsame a ha).trans (hsame b hb).symm)
    have hmem : L[0].take n <+: lcp L := by
      refine (prefix_lcp_iff hne).mpr fun a ha => ?_
      obtain ⟨i, hi, rfl⟩ := List.getElem_of_mem ha
      exact (hpre i hi).1
    rw [← List.length_take_of_le hlong]
    exact hmem.length_le

end CommonPrefix
