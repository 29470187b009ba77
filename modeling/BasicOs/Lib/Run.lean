import Mathlib.Logic.Function.Basic
import Mathlib.Logic.Function.Iterate
import Mathlib.Tactic.SplitIfs

/-!
# Runs of a partial step function, and counted loops

* `Reach step ok s t` : some finite sequence of events leads from `s` to `t`, each event allowed by
  `ok` where it is taken; `Reach.invariant` (what every step keeps holds along the run),
  `Reach.of_foldlM` (a list of events that passes a check);
* `observed step obs` : the same system with an observer beside it, for properties of the history;
* `Leads step s t` : some number of steps of a total step function leads from `s` to `t`; `Leads.to_fixed`,
  `Leads.unique` (a run stops in one state at most, and passes what it reaches before);
* `outputs f s as`, `final f s as` : what a machine with outputs answers to a list of inputs, and where it ends;
* `forUp lo n body` : the loop `for (i = lo; i < lo + n; i++)`, and its invariant rule;
  `foldlM_invariant`, `foldlM_isSome` : the rules for a loop over a list whose body can fail; `le_foldl_min_iff` : a
  loop that looks for the least index.
-/

namespace Run

section Reach
variable {σ ε γ : Type}

/-- `t` is reached from `s` by events that `ok` allows where they are taken. -/
inductive Reach (step : σ → ε → Option σ) (ok : σ → ε → Prop) : σ → σ → Prop
  | refl (s : σ) : Reach step ok s s
  | tail {s t u : σ} (e : ε) : Reach step ok s t → ok t e → step t e = some u → Reach step ok s u

variable {step : σ → ε → Option σ} {ok : σ → ε → Prop} {s t u : σ}

theorem Reach.invariant {I : σ → Prop} (h : Reach step ok s t) (h0 : I s)
    (hstep : ∀ s e t, I s → ok s e → step s e = some t → I t) : I t := by
  induction h with
  | refl => exact h0
  | tail e _ hok hs ih => exact hstep _ e _ ih hok hs

/-- A run given as a list of events, with a check that decides more than the condition. -/
theorem Reach.of_foldlM (check : σ → ε → Bool) (hcheck : ∀ s e, check s e = true → ok s e) :
    ∀ (es : List ε) {s t u : σ}, Reach step ok s t →
      es.foldlM (fun s e => if check s e = true then step s e else none) t = some u → Reach step ok s u
  | [], _, _, _, h, hes => by
    cases hes
    exact h
  | e :: es, s, t, u, h, hes => by
    rw [List.foldlM_cons] at hes
    obtain ⟨v, hv, hes⟩ := Option.bind_eq_some_iff.mp hes
    by_cases hc : check t e = true
    · rw [if_pos hc] at hv
      exact Reach.of_foldlM check hcheck es (.tail e h (hcheck t e hc) hv) hes
    · rw [if_neg hc] at hv
      cases hv

/-- The system with an observer: `obs` sees each step it takes. -/
def observed (step : σ → ε → Option σ) (obs : γ → σ → ε → σ → γ) : σ × γ → ε → Option (σ × γ) :=
  fun p e => (step p.1 e).map fun t => (t, obs p.2 p.1 e t)

theorem observed_eq_some {obs : γ → σ → ε → σ → γ} {p q : σ × γ} {e : ε} :
    observed step obs p e = some q ↔ step p.1 e = some q.1 ∧ q.2 = obs p.2 p.1 e q.1 := by
  unfold observed
  constructor
  · intro h
    obtain ⟨t, ht, rfl⟩ := Option.map_eq_some_iff.mp h
    exact ⟨ht, rfl⟩
  · rintro ⟨h, hq⟩
    rw [h, Option.map_some, ← hq]

end Reach

section Machine
variable {σ α β : Type}

/-- The state of the machine `f` after the inputs. -/
def final (f : σ → α → σ × β) (s : σ) (as : List α) : σ := as.foldl (fun s a => (f s a).1) s

/-- The outputs of the machine `f` for the inputs. -/
def outputs (f : σ → α → σ × β) : σ → List α → List β
  | _, [] => []
  | s, a :: as => (f s a).2 :: outputs f (f s a).1 as

theorem final_concat (f : σ → α → σ × β) (s : σ) (as : List α) (a : α) :
    final f s (as ++ [a]) = (f (final f s as) a).1 := by
  unfold final
  rw [List.foldl_append, List.foldl_cons, List.foldl_nil]

theorem outputs_concat (f : σ → α → σ × β) (s : σ) (as : List α) (a : α) :
    outputs f s (as ++ [a]) = outputs f s as ++ [(f (final f s as) a).2] := by
  induction as generalizing s with
  | nil => rfl
  | cons b as ih => exact congrArg _ (ih (f s b).1)

end Machine

section Leads
variable {σ : Type} {step : σ → σ} {s t u : σ}

/-- Some number of steps of a total step function leads from `s` to `t`. -/
def Leads (step : σ → σ) (s t : σ) : Prop := ∃ m, step^[m] s = t

theorem Leads.refl (step : σ → σ) (s : σ) : Leads step s s := ⟨0, rfl⟩

theorem Leads.head (h : Leads step (step s) t) : Leads step s t := by
  obtain ⟨m, hm⟩ := h
  exact ⟨m + 1, hm⟩

theorem Leads.trans (h₁ : Leads step s t) (h₂ : Leads step t u) : Leads step s u := by
  obtain ⟨m, rfl⟩ := h₁
  obtain ⟨n, rfl⟩ := h₂
  exact ⟨n + m, Function.iterate_add_apply step n m s⟩

/-- What every step keeps holds along the way. -/
theorem Leads.invariant {I : σ → Prop} (h : Leads step s t) (h0 : I s) (hstep : ∀ s, I s → I (step s)) : I t := by
  obtain ⟨m, rfl⟩ := h
  induction m with
  | zero => exact h0
  | succ m ih =>
    rw [Function.iterate_succ_apply']
    exact hstep _ ih

/-- From wherever a run has come, it goes on to the state where it stops. -/
theorem Leads.to_fixed (ht : Leads step s t) (hu : Leads step s u) (hfix : step t = t) : Leads step u t := by
  obtain ⟨m, rfl⟩ := ht
  obtain ⟨n, rfl⟩ := hu
  refine ⟨m, ?_⟩
  rw [← Function.iterate_add_apply, Nat.add_comm, Function.iterate_add_apply]
  exact Function.iterate_fixed hfix n

/-- A run stops in one state at most. -/
theorem Leads.unique (ht : Leads step s t) (hu : Leads step s u) (hfix : step t = t) (hfix' : step u = u) : t = u := by
  obtain ⟨m, rfl⟩ := ht.to_fixed hu hfix
  exact Function.iterate_fixed hfix' m

end Leads

section Loop
variable {σ : Type}

/-- `for (i = lo; i < lo + n; i++) s = body(i, s)`. -/
def forUp (lo : Nat) : Nat → (Nat → σ → σ) → σ → σ
  | 0, _, s => s
  | n + 1, body, s => forUp (lo + 1) n body (body lo s)

/-- The invariant rule: `P i` holds whenever the loop is about to run its body with `i`. -/
theorem forUp_invariant (P : Nat → σ → Prop) {body : Nat → σ → σ} :
    ∀ (n lo : Nat) (s : σ), P lo s →
      (∀ i s, lo ≤ i → i < lo + n → P i s → P (i + 1) (body i s)) → P (lo + n) (forUp lo n body s)
  | 0, _, _, h, _ => h
  | n + 1, lo, s, h, hbody => by
    have hnext := hbody lo s (Nat.le_refl lo) (by omega) h
    have hrest := forUp_invariant P n (lo + 1) (body lo s) hnext
      (fun i s' h1 h2 => hbody i s' (by omega) (by omega))
    rwa [show lo + (n + 1) = lo + 1 + n by omega]

/-- The last round of the loop. -/
theorem forUp_succ_last (body : Nat → σ → σ) : ∀ (n lo : Nat) (s : σ),
    forUp lo (n + 1) body s = body (lo + n) (forUp lo n body s)
  | 0, _, _ => rfl
  | n + 1, lo, s => by
    rw [forUp, forUp_succ_last body n (lo + 1), show lo + 1 + n = lo + (n + 1) by omega]
    rfl

/-- The loop that keeps the least index with a property. -/
theorem le_foldl_min_iff (P : Nat → Prop) [DecidablePred P] (min v : Int) (n : Nat) :
    v ≤ (List.range n).foldl (fun min (j : Nat) => if P j ∧ (j : Int) < min then (j : Int) else min) min ↔
      v ≤ min ∧ ∀ j, j < n → P j → v ≤ j := by
  induction n with
  | zero => simp
  | succ n ih =>
    rw [List.range_succ, List.foldl_append, List.foldl_cons, List.foldl_nil]
    generalize (List.range n).foldl (fun min (j : Nat) => if P j ∧ (j : Int) < min then (j : Int) else min) min = m
      at ih
    have hsucc : (∀ j, j < n + 1 → P j → v ≤ j) ↔ (∀ j, j < n → P j → v ≤ j) ∧ (P n → v ≤ n) := by
      constructor
      · exact fun h => ⟨fun j hj => h j (Nat.lt_succ_of_lt hj), h n (Nat.lt_succ_self n)⟩
      · rintro ⟨h1, h2⟩ j hj
        rcases Nat.lt_or_eq_of_le (Nat.le_of_lt_succ hj) with hlt | rfl
        · exact h1 j hlt
        · exact h2
    rw [hsucc, ← and_assoc, ← ih]
    split_ifs with hmin
    · constructor
      · exact fun hv => ⟨by omega, fun _ => hv⟩
      · exact fun hv => hv.2 hmin.1
    · constructor
      · exact fun hv => ⟨hv, fun hP => by
          have : ¬ (n : Int) < m := fun hlt => hmin ⟨hP, hlt⟩
          omega⟩
      · exact And.left

/-- The invariant rule for a loop over a list whose body can fail. -/
theorem foldlM_invariant {α : Type} (P : σ → Prop) {f : σ → α → Option σ} :
    ∀ (l : List α) {s s' : σ}, (∀ a ∈ l, ∀ s s', P s → f s a = some s' → P s') → P s → l.foldlM f s = some s' →
      P s'
  | [], s, s', _, h, e => by
    cases e
    exact h
  | a :: l, s, s', hf, h, e => by
    rw [List.foldlM_cons] at e
    obtain ⟨t, ht, e⟩ := Option.bind_eq_some_iff.mp e
    exact foldlM_invariant P l (fun b hb => hf b (List.mem_cons_of_mem a hb)) (hf a List.mem_cons_self s t h ht) e

/-- Such a loop ends if its body does under an invariant. -/
theorem foldlM_isSome {α : Type} (P : σ → Prop) {f : σ → α → Option σ} :
    ∀ (l : List α) {s : σ}, (∀ a ∈ l, ∀ s, P s → ∃ s', f s a = some s' ∧ P s') → P s → (l.foldlM f s).isSome
  | [], _, _, _ => rfl
  | a :: l, s, hf, h => by
    obtain ⟨t, ht, hP⟩ := hf a List.mem_cons_self s h
    rw [List.foldlM_cons, ht]
    exact foldlM_isSome P l (fun b hb => hf b (List.mem_cons_of_mem a hb)) hP

end Loop

end Run
