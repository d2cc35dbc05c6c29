import Mathlib.Data.List.Basic

/-!
# Cutting a stream into frames

A frame announces its own end: where the first frame of a stream ends does not depend on what follows it
(`Cut`). So a stream is a sequence of frames and a rest that does not begin with one in one way only
(`split_unique`), and taking frames off its front for as long as a step does so takes just these frames
(`drain_cases`), whatever state the taking carries along.
-/

namespace Framing

universe u v w

variable {α : Type u} {σ : Type v} {ε : Type w}

/-- The length of the frame at the front of a stream, which the frame alone decides. -/
structure Cut (α : Type u) where
  next : List α → Option Nat
  pos : ∀ {b : List α} {n : Nat}, next b = some n → 0 < n
  inside : ∀ {b : List α} {n : Nat}, next b = some n → n ≤ b.length
  front : ∀ {b : List α} {n : Nat}, next b = some n → ∀ y, next (b.take n ++ y) = some n

namespace Cut

variable {c : Cut α} {x y : List α}

/-- `x` is one frame. -/
def Frame (c : Cut α) (x : List α) : Prop := c.next x = some x.length

theorem Frame.next (h : c.Frame x) (y : List α) : c.next (x ++ y) = some x.length := by
  have hfront := c.front h y
  rwa [List.take_length] at hfront

theorem frame_take {b : List α} {n : Nat} (h : c.next b = some n) : c.Frame (b.take n) := by
  have hfront := c.front h []
  rw [List.append_nil] at hfront
  rw [Frame, hfront, List.length_take, Nat.min_eq_left (c.inside h)]

/-- A stream begins with one frame only. -/
theorem Frame.unique {x' y' : List α} (hx : c.Frame x) (hx' : c.Frame x') (h : x ++ y = x' ++ y') :
    x = x' ∧ y = y' := by
  have hlen : x.length = x'.length := by
    have hnext := hx.next y
    rw [h, hx'.next y'] at hnext
    exact (Option.some.inj hnext).symm
  exact List.append_inj h hlen

theorem length_le_flatten {ws : List (List α)} (h : ∀ x ∈ ws, c.Frame x) : ws.length ≤ ws.flatten.length := by
  induction ws with
  | nil => exact Nat.le_refl 0
  | cons x ws ih =>
    have hpos := c.pos (h x (List.mem_cons_self ..))
    have hle := ih fun z hz => h z (List.mem_cons_of_mem _ hz)
    rw [List.flatten_cons, List.length_append, List.length_cons]
    omega

theorem next_nil : c.next [] = none := by
  cases h : c.next [] with
  | none => rfl
  | some n => exact absurd (c.pos h) (Nat.not_lt.2 (c.inside h))

/-- **A stream splits into frames and a rest without one in one way only.** -/
theorem split_unique {ws ws' : List (List α)} {rest rest' : List α} (h : ∀ x ∈ ws, c.Frame x)
    (h' : ∀ x ∈ ws', c.Frame x) (hrest : c.next rest = none) (hrest' : c.next rest' = none)
    (heq : ws.flatten ++ rest = ws'.flatten ++ rest') : ws = ws' ∧ rest = rest' := by
  have hno : ∀ {x : List α} {z y : List α}, c.Frame x → c.next y = none → x ++ z ≠ y := by
    rintro x z y hx hy rfl
    rw [hx.next] at hy
    cases hy
  induction ws generalizing ws' with
  | nil =>
    cases ws' with
    | nil => exact ⟨rfl, heq⟩
    | cons x' ws' =>
      rw [List.flatten_cons, List.append_assoc] at heq
      exact absurd heq.symm (hno (h' x' (List.mem_cons_self ..)) hrest)
  | cons x ws ih =>
    cases ws' with
    | nil =>
      rw [List.flatten_cons, List.append_assoc] at heq
      exact absurd heq (hno (h x (List.mem_cons_self ..)) hrest')
    | cons x' ws' =>
      rw [List.flatten_cons, List.flatten_cons, List.append_assoc, List.append_assoc] at heq
      obtain ⟨rfl, htail⟩ := (h x (List.mem_cons_self ..)).unique (h' x' (List.mem_cons_self ..)) heq
      obtain ⟨rfl, rfl⟩ :=
        ih (fun z hz => h z (List.mem_cons_of_mem _ hz)) (fun z hz => h' z (List.mem_cons_of_mem _ hz)) htail
      exact ⟨rfl, rfl⟩

end Cut

/-! ## A cut from its frames -/

section

variable {F : List α → Prop} {b : List α} {n : Nat}

/-- The length of the frame at the front, when `F` are the frames. -/
noncomputable def frontFrame (F : List α → Prop) (b : List α) : Option Nat :=
  haveI := Classical.propDecidable (∃ x, F x ∧ x <+: b)
  if h : ∃ x, F x ∧ x <+: b then some h.choose.length else none

theorem frontFrame_iff (hunique : ∀ x x', F x → F x' → x <+: b → x' <+: b → x = x') :
    frontFrame F b = some n ↔ ∃ x, F x ∧ x <+: b ∧ x.length = n := by
  unfold frontFrame
  split_ifs with h
  · obtain ⟨hF, hfront⟩ := h.choose_spec
    rw [Option.some.injEq]
    constructor
    · intro hn
      exact ⟨h.choose, hF, hfront, hn⟩
    · rintro ⟨x, hx, hb, rfl⟩
      rw [hunique x _ hx hF hb hfront]
  · constructor
    · intro hn
      cases hn
    · rintro ⟨x, hx, hb, -⟩
      exact absurd ⟨x, hx, hb⟩ h

/-- Frames of which no stream begins with two. -/
noncomputable def Cut.ofFrames (F : List α → Prop) (ne_nil : ∀ x, F x → x ≠ [])
    (unique : ∀ b x x', F x → F x' → x <+: b → x' <+: b → x = x') : Cut α where
  next := frontFrame F
  pos h := by
    obtain ⟨x, hx, -, rfl⟩ := (frontFrame_iff (unique _)).1 h
    exact List.length_pos_iff.2 (ne_nil x hx)
  inside h := by
    obtain ⟨x, -, hb, rfl⟩ := (frontFrame_iff (unique _)).1 h
    exact hb.length_le
  front h y := by
    obtain ⟨x, hx, ⟨z, rfl⟩, rfl⟩ := (frontFrame_iff (unique _)).1 h
    rw [List.take_left]
    exact (frontFrame_iff (unique _)).2 ⟨x, hx, List.prefix_append x y, rfl⟩

variable {ne_nil : ∀ x, F x → x ≠ []} {unique : ∀ b x x', F x → F x' → x <+: b → x' <+: b → x = x'}

theorem Cut.ofFrames_next :
    (Cut.ofFrames F ne_nil unique).next b = some n ↔ ∃ x, F x ∧ x <+: b ∧ x.length = n :=
  frontFrame_iff (unique b)

theorem Cut.ofFrames_frame {x : List α} : (Cut.ofFrames F ne_nil unique).Frame x ↔ F x := by
  refine Cut.ofFrames_next.trans ⟨?_, fun hx => ⟨x, hx, List.prefix_rfl, rfl⟩⟩
  rintro ⟨x', hx', hfront, hlen⟩
  rwa [← hfront.eq_of_length hlen]

end

/-! ## Draining a stream -/

/-- Take frames off the front until nothing is left. A step says how much it has taken. -/
def drain (step : List α → σ → Except ε (Nat × σ)) (stuck : ε) :
    Nat → List α → σ → Except ε (List (List α) × σ)
  | 0, _, _ => .error stuck
  | fuel + 1, b, s =>
    if b.isEmpty then .ok ([], s)
    else
      match step b s with
      | .error e => .error e
      | .ok (n, s') => (drain step stuck fuel (b.drop n) s').map fun r => (b.take n :: r.1, r.2)

/-- On streams of up to `k` elements a step takes exactly the frame the cut finds. -/
def Takes (c : Cut α) (step : List α → σ → Except ε (Nat × σ)) (k : Nat) : Prop :=
  ∀ b s n, b.length ≤ k → ((∃ s', step b s = .ok (n, s')) ↔ c.next b = some n)

section

variable {c : Cut α} {step : List α → σ → Except ε (Nat × σ)} {stuck : ε} {k fuel : Nat} {b : List α}

theorem drain_nil (hf : 0 < fuel) (s : σ) : drain step stuck fuel [] s = .ok ([], s) := by
  obtain ⟨fuel, rfl⟩ : ∃ m, fuel = m + 1 := ⟨fuel - 1, by omega⟩
  rfl

theorem drain_ok (hb : b ≠ []) {n : Nat} {s s' : σ} (h : step b s = .ok (n, s')) :
    drain step stuck (fuel + 1) b s =
      (drain step stuck fuel (b.drop n) s').map fun r => (b.take n :: r.1, r.2) := by
  rw [drain, if_neg (by rwa [List.isEmpty_iff]), h]

theorem drain_error (hb : b ≠ []) {s : σ} {e : ε} (h : step b s = .error e) :
    drain step stuck (fuel + 1) b s = .error e := by
  rw [drain, if_neg (by rwa [List.isEmpty_iff]), h]

/-- **A drain gives up where no frame is left**, with the error of the step there. -/
theorem drain_cases (h : Takes c step k) (hb : b.length ≤ k) (hf : b.length < fuel) (s : σ) :
    ∃ (ws : List (List α)) (rest : List α), ws.flatten ++ rest = b ∧ (∀ x ∈ ws, c.Frame x) ∧
      ((rest = [] ∧ ∃ s', drain step stuck fuel b s = .ok (ws, s')) ∨
        (rest ≠ [] ∧ c.next rest = none ∧
          ∃ s' e, step rest s' = .error e ∧ drain step stuck fuel b s = .error e)) := by
  induction fuel generalizing b s with
  | zero => omega
  | succ fuel ih =>
    by_cases hnil : b = []
    · subst hnil
      refine ⟨[], [], rfl, fun x hx => absurd hx List.not_mem_nil, Or.inl ⟨rfl, s, ?_⟩⟩
      exact drain_nil (Nat.succ_pos _) s
    · cases hstep : step b s with
      | error e =>
        have hnone : c.next b = none := by
          cases hnext : c.next b with
          | none => rfl
          | some n =>
            obtain ⟨s', hs'⟩ := (h b s n hb).2 hnext
            rw [hstep] at hs'
            cases hs'
        refine ⟨[], b, rfl, fun x hx => absurd hx List.not_mem_nil, Or.inr ⟨hnil, hnone, s, e, hstep, ?_⟩⟩
        exact drain_error hnil hstep
      | ok p =>
        obtain ⟨n, s₁⟩ := p
        have hnext := (h b s n hb).1 ⟨s₁, hstep⟩
        have hpos := c.pos hnext
        have hin := c.inside hnext
        have hlen : (b.drop n).length = b.length - n := List.length_drop
        obtain ⟨ws, rest, hsplit, hframes, hend⟩ := @ih (b.drop n) (by omega) (by omega) s₁
        refine ⟨b.take n :: ws, rest, ?_, ?_, ?_⟩
        · rw [List.flatten_cons, List.append_assoc, hsplit, List.take_append_drop]
        · intro x hx
          rcases List.mem_cons.1 hx with rfl | hx
          · exact Cut.frame_take hnext
          · exact hframes x hx
        · rcases hend with ⟨hrest, s', hdrain⟩ | ⟨hrest, hnone, s', e, he, hdrain⟩
          · refine Or.inl ⟨hrest, s', ?_⟩
            rw [drain_ok hnil hstep, hdrain]
            rfl
          · refine Or.inr ⟨hrest, hnone, s', e, he, ?_⟩
            rw [drain_ok hnil hstep, hdrain]
            rfl

end

end Framing
