import Mathlib.Data.List.Basic

/-!
# Offering outputs to an observer that may veto

A producer hands its outputs over one at a time; the observer updates its own state and may refuse one,
which ends the offering. Every output carries a tag: where the producer stands should that output be
refused. `offer_split` says what a refusal is: the first one, with everything before it accepted;
`offer_log` that an observer keeping a log has logged exactly what it was offered.
-/

namespace Veto

universe u

variable {σ ο τ ρ κ : Type u}

/-- Hand `outs` over in order. The first refusal ends it, with the tag of the refused output. -/
def offer (f : ο → σ → Except ρ PUnit.{u + 1} × σ) : List (τ × ο) → σ → Except (τ × ρ) PUnit.{u + 1} × σ
  | [], s => (.ok ⟨⟩, s)
  | (t, o) :: rest, s =>
    match f o s with
    | (.ok _, s') => offer f rest s'
    | (.error r, s') => (.error (t, r), s')

variable {f : ο → σ → Except ρ PUnit.{u + 1} × σ}

@[simp] theorem offer_nil (s : σ) : offer f ([] : List (τ × ο)) s = (.ok ⟨⟩, s) := rfl

theorem offer_cons_ok {o : ο} {s s' : σ} {a : PUnit.{u + 1}} (h : f o s = (.ok a, s')) (t : τ) (rest : List (τ × ο)) :
    offer f ((t, o) :: rest) s = offer f rest s' := by
  simp only [offer, h]

theorem offer_cons_error {o : ο} {s s' : σ} {r : ρ} (h : f o s = (.error r, s')) (t : τ) (rest : List (τ × ο)) :
    offer f ((t, o) :: rest) s = (.error (t, r), s') := by
  simp only [offer, h]

/-- Offering in two instalments. -/
theorem offer_append (a b : List (τ × ο)) (s : σ) :
    offer f (a ++ b) s = match offer f a s with
      | (.ok _, s') => offer f b s'
      | (.error e, s') => (.error e, s') := by
  induction a generalizing s with
  | nil => rfl
  | cons x a ih =>
    obtain ⟨t, o⟩ := x
    rw [List.cons_append]
    cases h : f o s with
    | mk r s' =>
      cases r with
      | ok u => rw [offer_cons_ok h, offer_cons_ok h, ih]
      | error r => rw [offer_cons_error h, offer_cons_error h]

/-- An observer that refuses nothing it is offered accepts the whole offering. -/
theorem offer_accepting {outs : List (τ × ο)} (h : ∀ x ∈ outs, ∀ s, ∃ s', f x.2 s = (.ok ⟨⟩, s')) (s : σ) :
    ∃ s', offer f outs s = (.ok ⟨⟩, s') := by
  induction outs generalizing s with
  | nil => exact ⟨s, rfl⟩
  | cons x outs ih =>
    obtain ⟨t, o⟩ := x
    obtain ⟨s₁, h₁⟩ := h (t, o) (by simp) s
    rw [offer_cons_ok h₁]
    exact ih (fun y hy => h y (by simp [hy])) s₁

/-- **A refusal is the first one**: everything before it was accepted, nothing after it was offered. -/
theorem offer_split {outs : List (τ × ο)} {s s' : σ} {t : τ} {r : ρ} (h : offer f outs s = (.error (t, r), s')) :
    ∃ pre o post s₁, outs = pre ++ (t, o) :: post ∧ offer f pre s = (.ok ⟨⟩, s₁) ∧ f o s₁ = (.error r, s') := by
  induction outs generalizing s with
  | nil => simp at h
  | cons x outs ih =>
    obtain ⟨t', o⟩ := x
    cases hf : f o s with
    | mk v s₂ =>
      cases v with
      | ok u =>
        rw [offer_cons_ok hf] at h
        obtain ⟨pre, o', post, s₁, rfl, h1, h2⟩ := ih h
        exact ⟨(t', o) :: pre, o', post, s₁, rfl, by rw [offer_cons_ok hf, h1], h2⟩
      | error r' =>
        rw [offer_cons_error hf] at h
        obtain ⟨⟨rfl, rfl⟩, rfl⟩ : (t' = t ∧ r' = r) ∧ s₂ = s' := by simpa using h
        exact ⟨[], o, outs, s, rfl, rfl, hf⟩

/-- Every output of an accepted offering was accepted in some state. -/
theorem offer_accepted {outs : List (τ × ο)} {s s' : σ} {a : PUnit.{u + 1}} (h : offer f outs s = (.ok a, s')) :
    ∀ x ∈ outs, ∃ s₁ s₂ u, f x.2 s₁ = (.ok u, s₂) := by
  intro x hx
  obtain ⟨pre, post, rfl⟩ := List.append_of_mem hx
  obtain ⟨t, o⟩ := x
  rw [offer_append] at h
  rcases hpre : offer f pre s with ⟨e | u, s₁⟩
  · rw [hpre] at h
    cases h
  · rw [hpre] at h
    rcases ho : f o s₁ with ⟨r | u', s₂⟩
    · simp only [offer_cons_error ho] at h
      cases h
    · exact ⟨s₁, s₂, u', ho⟩

/-- What every accepted output preserves holds after an accepted offering. -/
theorem offer_preserves {Inv : σ → Prop} {outs : List (τ × ο)}
    (h : ∀ x ∈ outs, ∀ s s' u, Inv s → f x.2 s = (.ok u, s') → Inv s') {s s' : σ} {a : PUnit.{u + 1}} (hi : Inv s)
    (ho : offer f outs s = (.ok a, s')) : Inv s' := by
  induction outs generalizing s with
  | nil =>
    obtain ⟨-, rfl⟩ : True ∧ s = s' := by simpa using ho
    exact hi
  | cons x outs ih =>
    obtain ⟨t, o⟩ := x
    cases hf : f o s with
    | mk v s₂ =>
      cases v with
      | ok u' =>
        rw [offer_cons_ok hf] at ho
        exact ih (fun y hy => h y (List.mem_cons_of_mem _ hy)) (h (t, o) (List.mem_cons_self ..) s s₂ u' hi hf) ho
      | error r =>
        rw [offer_cons_error hf] at ho
        simp at ho

/-- An observer that translates each output and each refusal of another one. -/
theorem offer_map {ο' ρ' : Type u} {g : ο' → σ → Except ρ' PUnit.{u + 1} × σ} (k : ο → ο') (w : ρ' → ρ)
    {outs : List (τ × ο)} (h : ∀ x ∈ outs, ∀ s, f x.2 s = ((g (k x.2) s).1.mapError w, (g (k x.2) s).2)) (s : σ) :
    offer f outs s =
      ((offer g (outs.map fun x => (x.1, k x.2)) s).1.mapError fun e => (e.1, w e.2),
        (offer g (outs.map fun x => (x.1, k x.2)) s).2) := by
  induction outs generalizing s with
  | nil => rfl
  | cons x outs ih =>
    obtain ⟨t, o⟩ := x
    have hx := h (t, o) (List.mem_cons_self ..) s
    simp only [List.map_cons]
    cases hg : g (k o) s with
    | mk v s₂ =>
      rw [hg] at hx
      cases v with
      | ok u' => rw [offer_cons_ok hx, offer_cons_ok hg, ih fun y hy => h y (List.mem_cons_of_mem _ hy)]
      | error r =>
        rw [offer_cons_error hx, offer_cons_error hg]
        rfl

/-- An observer that logs `note o` for each output it is offered has logged all of an accepted offering. -/
theorem offer_log (log : σ → List κ) (note : ο → List κ) {outs : List (τ × ο)}
    (h : ∀ x ∈ outs, ∀ s, log (f x.2 s).2 = log s ++ note x.2) {s s' : σ} {a : PUnit.{u + 1}}
    (ho : offer f outs s = (.ok a, s')) : log s' = log s ++ outs.flatMap fun x => note x.2 := by
  induction outs generalizing s with
  | nil =>
    obtain ⟨-, rfl⟩ : True ∧ s = s' := by simpa using ho
    simp
  | cons x outs ih =>
    obtain ⟨t, o⟩ := x
    have hx := h (t, o) (by simp) s
    cases hf : f o s with
    | mk v s₂ =>
      rw [hf] at hx
      cases v with
      | ok u' =>
        rw [offer_cons_ok hf] at ho
        rw [ih (fun y hy => h y (by simp [hy])) ho, hx]
        simp
      | error r =>
        rw [offer_cons_error hf] at ho
        simp at ho

end Veto
