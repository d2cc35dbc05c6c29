import Mathlib.Data.List.Basic

/-!
# Pieces laid out in a text

A piece is a position and the symbols that stand there. `Laid p w xs` says of a text `w` that begins at
position `p`: every piece of `xs` stands in it and does not reach its end, and each piece ends before the
next one begins. Layouts of two texts make one of the whole (`Laid.append`), and a layout grows by the piece
that was read last (`Laid.snoc`).
-/

namespace Layout

universe u

variable {α : Type u}

/-- A position, and the symbols from there on. -/
abbrev Piece (α : Type u) := Nat × List α

/-- The piece stands in the text, and a further symbol behind it. -/
def Lies (p : Nat) (w : List α) (x : Piece α) : Prop := ∃ pre d post, w = pre ++ x.2 ++ d :: post ∧ x.1 = p + pre.length

structure Laid (p : Nat) (w : List α) (xs : List (Piece α)) : Prop where
  lies : ∀ x ∈ xs, Lies p w x
  apart : xs.Pairwise fun x y => x.1 + x.2.length < y.1

variable {p : Nat} {w : List α} {x : Piece α} {xs ys : List (Piece α)}

/-! ## Single pieces -/

theorem Lies.le (h : Lies p w x) : p ≤ x.1 := by
  obtain ⟨pre, d, post, -, hx⟩ := h
  omega

theorem Lies.lt (h : Lies p w x) : x.1 + x.2.length < p + w.length := by
  obtain ⟨pre, d, post, rfl, hx⟩ := h
  simp only [List.length_append, List.length_cons]
  omega

theorem Lies.grow (h : Lies p w x) (v : List α) : Lies p (w ++ v) x := by
  obtain ⟨pre, d, post, rfl, hx⟩ := h
  exact ⟨pre, d, post ++ v, by simp only [List.append_assoc, List.cons_append], hx⟩

theorem Lies.shift (v : List α) (h : Lies (p + v.length) w x) : Lies p (v ++ w) x := by
  obtain ⟨pre, d, post, rfl, hx⟩ := h
  refine ⟨v ++ pre, d, post, by simp only [List.append_assoc], ?_⟩
  rw [hx, List.length_append, Nat.add_assoc]

/-- What stands at the position of a piece is the piece. -/
theorem Lies.take_drop (h : Lies 0 w x) : (w.drop x.1).take x.2.length = x.2 := by
  obtain ⟨pre, d, post, rfl, hx⟩ := h
  rw [hx, Nat.zero_add, List.append_assoc, List.drop_left' rfl, List.take_left' rfl]

/-! ## Layouts -/

theorem Laid.nil (p : Nat) (w : List α) : Laid p w [] := ⟨fun _ h => absurd h List.not_mem_nil, .nil⟩

theorem Laid.sublist (h : Laid p w ys) (hxs : xs.Sublist ys) : Laid p w xs :=
  ⟨fun x hx => h.lies x (hxs.subset hx), h.apart.sublist hxs⟩

theorem Laid.grow (h : Laid p w xs) (v : List α) : Laid p (w ++ v) xs := ⟨fun x hx => (h.lies x hx).grow v, h.apart⟩

theorem Laid.shift (v : List α) (h : Laid (p + v.length) w xs) : Laid p (v ++ w) xs :=
  ⟨fun x hx => (h.lies x hx).shift v, h.apart⟩

/-- **Two layouts, one text after the other.** -/
theorem Laid.append {v : List α} (hx : Laid p w xs) (hy : Laid (p + w.length) v ys) : Laid p (w ++ v) (xs ++ ys) := by
  constructor
  · intro x h
    rcases List.mem_append.1 h with h | h
    · exact (hx.lies x h).grow v
    · exact (hy.lies x h).shift w
  · refine List.pairwise_append.2 ⟨hx.apart, hy.apart, ?_⟩
    intro x h y h'
    exact Nat.lt_of_lt_of_le (hx.lies x h).lt (hy.lies y h').le

/-- A piece that is read next, and what it ends at. -/
theorem Laid.snoc (h : Laid p w xs) (bs : List α) {v : List α} (hv : v ≠ []) :
    Laid p (w ++ (bs ++ v)) (xs ++ [(p + w.length, bs)]) := by
  obtain ⟨d, post, rfl⟩ := List.exists_cons_of_ne_nil hv
  refine h.append ⟨?_, List.pairwise_singleton ..⟩
  intro x hx
  rw [List.mem_singleton.1 hx]
  exact ⟨[], d, post, rfl, rfl⟩

end Layout
