import Httparsed.Lib.Veto

/-!
# An observer that may crash

A callback can do more than accept or refuse: it can crash, and then nothing is left to go on with. `deliver`
hands outputs over to such an observer. A producer that knows of refusals only can drive it all the same: the
crash is kept in the state and refuses from then on (`guarded`), and read off in the end (`settle_offer`).
-/

namespace Veto

universe u

variable {σ ο τ ρ φ : Type u}

/-- Hand `outs` over in order: to the end, up to the first refusal, or up to a crash. -/
def deliver (g : ο → σ → Except φ (Except ρ PUnit.{u + 1} × σ)) :
    List (τ × ο) → σ → Except φ (Except (τ × ρ) PUnit.{u + 1} × σ)
  | [], s => .ok (.ok ⟨⟩, s)
  | (t, o) :: rest, s =>
    match g o s with
    | .error x => .error x
    | .ok (.ok _, s') => deliver g rest s'
    | .ok (.error r, s') => .ok (.error (t, r), s')

/-- The same observer with its crash as a state, in which it refuses everything. -/
def guarded (g : ο → σ → Except φ (Except ρ PUnit.{u + 1} × σ)) (refusal : ρ) :
    ο → Except φ σ → Except ρ PUnit.{u + 1} × Except φ σ
  | _, .error x => (.error refusal, .error x)
  | o, .ok s =>
    match g o s with
    | .error x => (.error refusal, .error x)
    | .ok (res, s') => (res, .ok s')

/-- What has come of it, a crash before anything else. -/
def settle {α : Type u} : α × Except φ σ → Except φ (α × σ)
  | (_, .error x) => .error x
  | (a, .ok s) => .ok (a, s)

variable {g : ο → σ → Except φ (Except ρ PUnit.{u + 1} × σ)}

theorem deliver_cons (t : τ) (o : ο) (rest : List (τ × ο)) (s : σ) :
    deliver g ((t, o) :: rest) s = match g o s with
      | .error x => .error x
      | .ok (.ok _, s') => deliver g rest s'
      | .ok (.error r, s') => .ok (.error (t, r), s') := rfl

/-- **Offering to the guarded observer is delivering to the observer.** -/
theorem settle_offer (refusal : ρ) (outs : List (τ × ο)) (s : σ) :
    settle (offer (guarded g refusal) outs (.ok s)) = deliver g outs s := by
  induction outs generalizing s with
  | nil => rfl
  | cons x outs ih =>
    obtain ⟨t, o⟩ := x
    rw [deliver_cons]
    cases hg : g o s with
    | error y =>
      have h : guarded g refusal o (.ok s) = (.error refusal, .error y) := by simp only [guarded, hg]
      rw [offer_cons_error h]
      rfl
    | ok p =>
      obtain ⟨r | u, s'⟩ := p
      · have h : guarded g refusal o (.ok s) = (.error r, .ok s') := by simp only [guarded, hg]
        rw [offer_cons_error h]
        rfl
      · have h : guarded g refusal o (.ok s) = (.ok u, .ok s') := by simp only [guarded, hg]
        rw [offer_cons_ok h]
        exact ih s'

/-- Delivering in two instalments. -/
theorem deliver_append (a b : List (τ × ο)) (s : σ) :
    deliver g (a ++ b) s = match deliver g a s with
      | .error x => .error x
      | .ok (.ok _, s') => deliver g b s'
      | .ok (.error e, s') => .ok (.error e, s') := by
  induction a generalizing s with
  | nil => rfl
  | cons x a ih =>
    obtain ⟨t, o⟩ := x
    rw [List.cons_append, deliver_cons, deliver_cons]
    cases hg : g o s with
    | error y => rfl
    | ok p =>
      obtain ⟨r | u, s'⟩ := p
      · rfl
      · exact ih s'

/-- **A refusal is the first one**, and nothing has crashed before it. -/
theorem deliver_split {outs : List (τ × ο)} {s s' : σ} {t : τ} {r : ρ}
    (h : deliver g outs s = .ok (.error (t, r), s')) :
    ∃ pre o post s₁, outs = pre ++ (t, o) :: post ∧ deliver g pre s = .ok (.ok ⟨⟩, s₁) ∧
      g o s₁ = .ok (.error r, s') := by
  induction outs generalizing s with
  | nil => simp [deliver] at h
  | cons x outs ih =>
    obtain ⟨t', o⟩ := x
    rw [deliver_cons] at h
    cases hg : g o s with
    | error y =>
      rw [hg] at h
      cases h
    | ok p =>
      obtain ⟨r' | u, s₂⟩ := p
      · rw [hg] at h
        obtain ⟨⟨rfl, rfl⟩, rfl⟩ : (t' = t ∧ r' = r) ∧ s₂ = s' := by simpa using h
        exact ⟨[], o, outs, s, rfl, rfl, hg⟩
      · rw [hg] at h
        obtain ⟨pre, o', post, s₁, rfl, h1, h2⟩ := ih h
        exact ⟨(t', o) :: pre, o', post, s₁, rfl, by rw [deliver_cons, hg]; exact h1, h2⟩

/-- Outputs that are not refused are folded into the state, unless it crashes. -/
theorem deliver_fold {f : σ → ο → Except φ σ} {outs : List (τ × ο)}
    (h : ∀ x ∈ outs, ∀ s, g x.2 s = (f s x.2).map fun s' => (.ok ⟨⟩, s')) (s : σ) :
    deliver g outs s = ((outs.map Prod.snd).foldlM f s).map fun s' => (.ok ⟨⟩, s') := by
  induction outs generalizing s with
  | nil => rfl
  | cons x outs ih =>
    obtain ⟨t, o⟩ := x
    have hx := h (t, o) (List.mem_cons_self ..) s
    rw [deliver_cons, List.map_cons, List.foldlM_cons, hx]
    cases hf : f s o with
    | error y => rfl
    | ok s' => exact ih (fun y hy => h y (List.mem_cons_of_mem _ hy)) s'

end Veto
