import Mathlib.Data.List.Nodup
import Mathlib.Logic.Function.Basic

/-!
# Threads that call and take turns

A fixed family of threads, one of which has the turn. Each has a stack of calls that have not returned, and the
context in which it was interrupted last.

* `State`, `Request`, `State.step next` : a thread that has the turn calls, returns, or is interrupted, and then
  the `next` one has the turn;
* `Distinct key m` : no two calls in progress have the same key; it is kept where keys are fresh;
* `State.base_step`, `State.ret_of_lower` : a stack changes at its top only: what is below a call is there until the
  call returns.
-/

namespace Threads
variable {ι φ ρ κ : Type}

structure State (ι φ ρ : Type) where
  turn : ι
  calls : ι → List φ
  saved : ι → ρ

inductive Request (φ ρ : Type)
  | yield (context : ρ)
  | call (frame : φ)
  | ret
  | stay

section Step
variable [DecidableEq ι] {next : ι → ι} {m : State ι φ ρ} {r : Request φ ρ}

/-- What the thread that has the turn asks for. A return from an empty stack starts the thread anew. -/
def State.step (next : ι → ι) (m : State ι φ ρ) : Request φ ρ → State ι φ ρ
  | .yield c => { m with turn := next m.turn, saved := Function.update m.saved m.turn c }
  | .call f => { m with calls := Function.update m.calls m.turn (f :: m.calls m.turn) }
  | .ret => { m with calls := Function.update m.calls m.turn (m.calls m.turn).tail }
  | .stay => m

@[simp] theorem State.calls_call (m : State ι φ ρ) (f : φ) :
    (m.step next (.call f)).calls m.turn = f :: m.calls m.turn := Function.update_self _ _ _

@[simp] theorem State.calls_ret (m : State ι φ ρ) : (m.step next .ret).calls m.turn = (m.calls m.turn).tail :=
  Function.update_self _ _ _

/-- The calls of the others stay as they are. -/
theorem State.calls_of_ne {t : ι} (ht : t ≠ m.turn) : (m.step next r).calls t = m.calls t := by
  cases r with
  | yield c => rfl
  | call f => exact Function.update_of_ne ht _ _
  | ret => exact Function.update_of_ne ht _ _
  | stay => rfl

/-- A call in progress was there before, or has just been made. -/
theorem State.mem_calls_step {t : ι} {f : φ} (hf : f ∈ (m.step next r).calls t) :
    f ∈ m.calls t ∨ r = .call f ∧ t = m.turn := by
  by_cases ht : t = m.turn
  · subst ht
    cases r with
    | yield c => exact Or.inl hf
    | stay => exact Or.inl hf
    | call g =>
      rw [State.calls_call] at hf
      rcases List.mem_cons.mp hf with rfl | hf
      · exact Or.inr ⟨rfl, rfl⟩
      · exact Or.inl hf
    | ret =>
      rw [State.calls_ret] at hf
      exact Or.inl (List.mem_of_mem_tail hf)
  · rw [State.calls_of_ne ht] at hf
    exact Or.inl hf

/-- A stack changes at its top, and by one call. -/
theorem State.calls_cases (m : State ι φ ρ) (r : Request φ ρ) (t : ι) :
    (m.step next r).calls t = m.calls t ∨
      t = m.turn ∧ ((∃ f, r = .call f ∧ (m.step next r).calls t = f :: m.calls t) ∨
        r = .ret ∧ (m.step next r).calls t = (m.calls t).tail) := by
  by_cases ht : t = m.turn
  · subst ht
    cases r with
    | yield c => exact Or.inl rfl
    | stay => exact Or.inl rfl
    | call f => exact Or.inr ⟨rfl, Or.inl ⟨f, rfl, State.calls_call m f⟩⟩
    | ret => exact Or.inr ⟨rfl, Or.inr ⟨rfl, State.calls_ret m⟩⟩
  · exact Or.inl (State.calls_of_ne ht)

/-- What is below stays there until the stack gets lower. -/
theorem State.base_step {t : ι} {base : List φ} (h : base <:+ m.calls t)
    (hlen : base.length ≤ ((m.step next r).calls t).length) : base <:+ (m.step next r).calls t := by
  rcases State.calls_cases m r t with he | ⟨-, ⟨f, -, he⟩ | ⟨-, he⟩⟩
  · rw [he]
    exact h
  · rw [he]
    exact h.trans (List.suffix_cons f _)
  · rw [he] at hlen ⊢
    cases hc : m.calls t with
    | nil => rwa [hc] at h
    | cons f fs =>
      rw [hc] at h hlen
      rcases List.suffix_cons_iff.mp h with rfl | h
      · exact absurd hlen (Nat.not_succ_le_self _)
      · exact h

/-- A stack that gets lower than a call of it does so by the return of that call. -/
theorem State.ret_of_lower {t : ι} {f : φ} {base : List φ} (h : f :: base <:+ m.calls t)
    (hlen : ((m.step next r).calls t).length = base.length) :
    r = .ret ∧ t = m.turn ∧ m.calls t = f :: base ∧ (m.step next r).calls t = base := by
  have hle := h.length_le
  rw [List.length_cons] at hle
  rcases State.calls_cases m r t with he | ⟨ht, ⟨g, -, he⟩ | ⟨hr, he⟩⟩
  · rw [he] at hlen
    omega
  · rw [he, List.length_cons] at hlen
    omega
  · rw [he, List.length_tail] at hlen
    have hcalls : f :: base = m.calls t := h.eq_of_length (by rw [List.length_cons]; omega)
    refine ⟨hr, ht, hcalls.symm, ?_⟩
    rw [he, ← hcalls, List.tail_cons]

end Step

/-! ## Keys -/

/-- No two calls in progress have the same key. -/
structure Distinct (key : φ → κ) (m : State ι φ ρ) : Prop where
  nodup : ∀ t, ((m.calls t).map key).Nodup
  thread : ∀ t u, ∀ f ∈ m.calls t, ∀ g ∈ m.calls u, key f = key g → t = u

variable [DecidableEq ι] {next : ι → ι} {m : State ι φ ρ} {r : Request φ ρ} {key : φ → κ}

theorem Distinct.step (h : Distinct key m) (hfresh : ∀ f, r = .call f → ∀ t, ∀ g ∈ m.calls t, key g ≠ key f) :
    Distinct key (m.step next r) where
  nodup t := by
    by_cases ht : t = m.turn
    · subst ht
      cases r with
      | yield c => exact h.nodup _
      | stay => exact h.nodup _
      | call f =>
        rw [State.calls_call, List.map_cons, List.nodup_cons]
        refine ⟨fun hmem => ?_, h.nodup _⟩
        obtain ⟨g, hg, hkey⟩ := List.mem_map.mp hmem
        exact hfresh f rfl _ g hg hkey
      | ret =>
        rw [State.calls_ret, List.map_tail]
        exact (h.nodup _).tail
    · rw [State.calls_of_ne ht]
      exact h.nodup t
  thread t u f hf g hg hkey := by
    rcases State.mem_calls_step hf with hf | ⟨hr, rfl⟩
    · rcases State.mem_calls_step hg with hg | ⟨hr, -⟩
      · exact h.thread t u f hf g hg hkey
      · exact absurd hkey (hfresh g hr t f hf)
    · rcases State.mem_calls_step hg with hg | ⟨-, rfl⟩
      · exact absurd hkey.symm (hfresh f hr u g hg)
      · rfl

end Threads
