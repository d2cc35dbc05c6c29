import Httparsed.Observe

/-!
# No call traps

An index or a slice out of range, a 16-byte load behind the buffer, a failed `assert`, a wrapping
`buffer.length - i` and a loop that outlives its bound are all faults of the model, and a fault is never
caught: it is the result of the call. The main result is `parse_safe`. Below it stands what the faults of the
two shared pieces are: the scanner has one exactly when it is entered behind the end of its buffer, and
`advanceNewline` exactly when it is used anywhere but at a CR or an LF.
-/

namespace Httparsed

variable {σ : Type}

/-- A scan that is entered behind the end of its buffer computes a length that wraps. -/
theorem parseToken_behind (simd : Simd) (a : TokenArgs) {buffer : Slice} {i : Nat} (hi : buffer.length < i) :
    parseToken simd a buffer i = .error (.fault .wrap) := by
  have hsub : sizeSub buffer.length i = .error (.fault .wrap) := by
    rw [sizeSub, if_neg (Nat.not_le.2 hi)]
  cases simd with
  | unrolled => simp only [parseToken, scanBlocks, unrolledLoop, hsub, error_bind]
  | sse42 cmp => simp only [parseToken, scanBlocks, hsub, error_bind]

theorem parseToken_fault_iff (simd : Simd) (a : TokenArgs) (buffer : Slice) (i : Nat) :
    (∃ f, parseToken simd a buffer i = .error (.fault f)) ↔ buffer.length < i := by
  constructor
  · rintro ⟨f, hf⟩
    by_contra hle
    rw [parseToken_eq simd a buffer i (Nat.le_of_not_lt hle)] at hf
    cases hf
  · intro hi
    exact ⟨.wrap, parseToken_behind simd a hi⟩

/-- The newline code asserts that it stands on a CR or an LF; what it reads after a CR is there. -/
theorem advanceNewline_fault_iff (buffer : Slice) (i : Nat) :
    (∃ f, advanceNewline buffer i = .error (.fault f)) ↔
      ¬∃ c, buffer.bytes[i]? = some c ∧ (c = CR ∨ c = LF) := by
  unfold advanceNewline
  by_cases hi : i < buffer.length
  · obtain ⟨c, hc⟩ := get_of_lt buffer hi
    rw [if_pos hi, hc, ok_bind, getElem?_of_get hc]
    by_cases hCR : c = CR
    · have hno : ¬∃ f, (if i + 1 = buffer.length then (.error (.ret (err .partialData)) : Except Stop Nat)
          else do
            let d ← buffer.get (i + 1)
            if d ≠ LF then .error (.ret (err .newLine)) else .ok (i + 2)) = .error (.fault f) := by
        rintro ⟨f, hf⟩
        by_cases hend : i + 1 = buffer.length
        · rw [if_pos hend] at hf
          cases hf
        · obtain ⟨d, hd⟩ := get_of_lt buffer (show i + 1 < buffer.length by omega)
          rw [if_neg hend, hd, ok_bind] at hf
          split_ifs at hf
          cases hf
      rw [if_pos hCR]
      exact iff_of_false hno (not_not.2 ⟨c, rfl, Or.inl hCR⟩)
    · rw [if_neg hCR]
      by_cases hLF : c = LF
      · rw [if_pos hLF]
        exact iff_of_false (by rintro ⟨f, hf⟩; cases hf) (not_not.2 ⟨c, rfl, Or.inr hLF⟩)
      · rw [if_neg hLF]
        refine iff_of_true ⟨.assertion, rfl⟩ ?_
        rintro ⟨d, hd, h | h⟩
        · exact hCR ((Option.some.inj hd).trans h)
        · exact hLF ((Option.some.inj hd).trans h)
  · rw [if_neg hi]
    refine iff_of_true ⟨.assertion, rfl⟩ ?_
    rintro ⟨c, hc, -⟩
    exact hi (List.getElem?_eq_some_iff.1 hc).1

/-- **No input makes the parser trap.** A call on any bytes, from any `lastPos` inside the buffer and with any
answers of the application, comes back with a code and a `lastPos` inside the buffer. -/
theorem parse_safe (entry : Entry) (simd : Simd) (h : Handler σ) {b : List Byte} (hb : b.length < 2 ^ 31)
    {lastPos : Nat} (hpos : lastPos ≤ b.length) (s : σ) :
    (∃ code n, (entry.parse ⟨simd, Ints.d⟩ h b lastPos s).1 = .ok (code, n) ∧ n ≤ b.length) ∧
      (∀ a buffer i, (∃ f, parseToken simd a buffer i = .error (.fault f)) ↔ buffer.length < i) ∧
      ∀ buffer i, (∃ f, advanceNewline buffer i = .error (.fault f)) ↔
        ¬∃ c, buffer.bytes[i]? = some c ∧ (c = CR ∨ c = LF) := by
  refine ⟨?_, parseToken_fault_iff simd, advanceNewline_fault_iff⟩
  obtain ⟨hmarks, hstop⟩ := read_marks entry.grammar b hpos
  rw [entry.parse_exact ⟨simd, Ints.d⟩ h Ints.d_small (Ints.d_faithful hb) hpos s]
  cases ho : Veto.offer (consult h) (answer entry.line b lastPos).calls s with
  | mk r s' =>
    rcases r with ⟨m, code⟩ | u
    · obtain ⟨pre, e, post, s₁, hsplit, -, -⟩ := Veto.offer_split ho
      have hmem : (m, e) ∈ (answer entry.line b lastPos).calls := by rw [hsplit]; simp
      obtain ⟨x, hx, hxe⟩ := List.mem_map.1 hmem
      refine ⟨code, m, rfl, ?_⟩
      rw [← (Prod.mk.inj hxe).1]
      exact hmarks x hx
    · exact ⟨_, _, rfl, hstop⟩

theorem parse_safe_blanks :
    ∃ code n, (Entry.response.parse ⟨.unrolled, Ints.d⟩ Handler.recorder (ascii "HTTP/1.0 200\na:\n \t\n") 0 ()).1 =
      .ok (code, n) ∧ n ≤ 19 :=
  (parse_safe .response .unrolled Handler.recorder (b := ascii "HTTP/1.0 200\na:\n \t\n") (by decide)
    (Nat.zero_le _) ()).1

end Httparsed
