import BasicOs.Lib.Run

/-!
# Clients of a shared service

A client is a program that makes calls and goes on with the answers. A service that it has for itself answers a call
as a function of what the client can see; a shared system takes the steps of everyone.

* `Program`, `Makes service P p calls q` : a client that has the service for itself makes these calls, from `p` to `q`;
* `Makes.rest` : up to its end there is only one way;
* `Makes.map` : a client that is part of another one;
* `follow P exchange` : an observer beside a shared system that follows the client through its own calls;
* `follow_makes` : where the steps of the others do not change what the client sees, it makes the calls that it makes
  alone.
-/

namespace Client
open Run

variable {σ κ β ω : Type}

/-- What a client asks next, `none` when it has ended, and how it goes on with the answer. -/
structure Program (σ κ β : Type) where
  call : σ → Option κ
  after : σ → β → σ

/-- The calls that a client makes, one after the other, when it has the service for itself. -/
inductive Makes (service : ω → κ → Option (ω × β)) (P : Program σ κ β) : ω × σ → List κ → ω × σ → Prop
  | done (p : ω × σ) : Makes service P p [] p
  | call {w w' : ω} {s : σ} {c : κ} {b : β} {cs : List κ} {q : ω × σ} (hc : P.call s = some c)
      (hs : service w c = some (w', b)) (rest : Makes service P (w', P.after s b) cs q) :
      Makes service P (w, s) (c :: cs) q

variable {service : ω → κ → Option (ω × β)} {P : Program σ κ β} {p q r : ω × σ} {cs ds : List κ}

theorem Makes.single {w w' : ω} {s : σ} {c : κ} {b : β} (hc : P.call s = some c) (hs : service w c = some (w', b)) :
    Makes service P (w, s) [c] (w', P.after s b) := .call hc hs (.done _)

theorem Makes.append (h : Makes service P p cs q) (h' : Makes service P q ds r) : Makes service P p (cs ++ ds) r := by
  induction h with
  | done p => exact h'
  | call hc hs _ ih => exact .call hc hs (ih h')

/-- What remains to be done on the way to the end. -/
theorem Makes.rest (h : Makes service P p cs q) (hend : Makes service P p ds r) (hr : P.call r.2 = none) :
    ∃ es, ds = cs ++ es ∧ Makes service P q es r := by
  induction h generalizing ds with
  | done p => exact ⟨ds, rfl, hend⟩
  | @call w w' s c b cs q hc hs _ ih =>
    cases hend with
    | done => rw [hc] at hr; cases hr
    | call hc' hs' rest =>
      obtain rfl := Option.some_inj.mp (hc.symm.trans hc')
      obtain ⟨rfl, rfl⟩ := Prod.ext_iff.mp (Option.some_inj.mp (hs.symm.trans hs'))
      obtain ⟨es, rfl, h⟩ := ih rest
      exact ⟨es, rfl, h⟩

/-- A client that comes to an end is answered at every call. -/
theorem Makes.served {w : ω} {s : σ} {c : κ} (h : Makes service P p cs (w, s)) (hend : Makes service P p ds r)
    (hr : P.call r.2 = none) (hc : P.call s = some c) : (service w c).isSome := by
  obtain ⟨es, -, h⟩ := h.rest hend hr
  cases h with
  | done => rw [hc] at hr; cases hr
  | call hc' hs' =>
    obtain rfl := Option.some_inj.mp (hc.symm.trans hc')
    rw [hs']
    rfl

/-- There it has made all of its calls. -/
theorem Makes.end_iff (h : Makes service P p cs q) (hend : Makes service P p ds r) (hr : P.call r.2 = none) :
    P.call q.2 = none ↔ cs = ds ∧ q = r := by
  obtain ⟨es, rfl, hrest⟩ := h.rest hend hr
  constructor
  · intro hq
    cases hrest with
    | done => exact ⟨(List.append_nil cs).symm, rfl⟩
    | call hc => rw [hc] at hq; cases hq
  · rintro ⟨-, rfl⟩
    exact hr

/-- A client that is part of another one. -/
theorem Makes.map {υ : Type} {Q : Program υ κ β} (f : σ → υ) (hcall : ∀ s, Q.call (f s) = P.call s)
    (hafter : ∀ s b, Q.after (f s) b = f (P.after s b)) (h : Makes service P p cs q) :
    Makes service Q (p.1, f p.2) cs (q.1, f q.2) := by
  induction h with
  | done p => exact .done _
  | @call w w' s c b cs q hc hs _ ih =>
    refine .call ((hcall s).trans hc) hs ?_
    rw [hafter]
    exact ih

section Shared
variable {τ ε : Type} {step : τ → ε → Option τ} {exchange : τ → ε → Option (κ × β)}

/-- The observer: the client's state, and the calls that it has made. -/
def follow (P : Program σ κ β) (exchange : τ → ε → Option (κ × β)) (g : σ × List κ) (s : τ) (e : ε) (_ : τ) :
    σ × List κ :=
  match exchange s e with
  | none => g
  | some (c, b) => (P.after g.1 b, g.2 ++ [c])

/-- **A client in company is a client alone.** `I` relates the system to what the client sees. -/
theorem follow_makes {ok : τ × (σ × List κ) → ε → Prop} {I : τ → ω → Prop} {s₀ s : τ} {w₀ : ω} {a₀ a : σ}
    {cs : List κ} (hrun : Reach (observed step (follow P exchange)) ok (s₀, (a₀, [])) (s, (a, cs))) (h₀ : I s₀ w₀)
    (hown : ∀ s e t w a cs c b, I s w → Makes service P (w₀, a₀) cs (w, a) → ok (s, (a, cs)) e →
      step s e = some t → exchange s e = some (c, b) →
      P.call a = some c ∧ ∃ w', service w c = some (w', b) ∧ I t w')
    (hother : ∀ s e t w g, I s w → ok (s, g) e → step s e = some t → exchange s e = none → I t w) :
    ∃ w, Makes service P (w₀, a₀) cs (w, a) ∧ I s w := by
  refine hrun.invariant (I := fun p => ∃ w, Makes service P (w₀, a₀) p.2.2 (w, p.2.1) ∧ I p.1 w) ⟨w₀, .done _, h₀⟩ ?_
  rintro ⟨s, a, cs⟩ e ⟨t, g⟩ ⟨w, hw, hI⟩ hok hobs
  obtain ⟨hs, hg⟩ := observed_eq_some.mp hobs
  dsimp only at hs hg hw hI ⊢
  subst hg
  unfold follow
  cases hx : exchange s e with
  | none => exact ⟨w, hw, hother s e t w (a, cs) hI hok hs hx⟩
  | some cb =>
    obtain ⟨c, b⟩ := cb
    obtain ⟨hcall, w', hserve, hI'⟩ := hown s e t w a cs c b hI hw hok hs hx
    exact ⟨w', hw.append (.single hcall hserve), hI'⟩

end Shared

end Client
