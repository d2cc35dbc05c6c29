import Httparsed.RefineLine

/-!
# `parse` refines the reader of heads

`parseHeaderLine` does what `lineStep` does on one line, `parseHeaders` what `headerStep` does on all of
them, and `parse` what `headStep` does: `parse_eq`. The equation holds for every buffer, every handler and
either scanner; the integer types only enter through the trimming of values (`notifyHeader`) and the
stored position (`Ints.store`).
-/

namespace Httparsed

open Transducer

variable {σ : Type}

/-! ## One header line -/

/-- `skipBlanks`, over the bytes that remain. -/
def blanksRest : Nat → List Byte → Except Stop Nat
  | _, [] => .error (.ret (err .partialData))
  | i, c :: cs => if c = SP ∨ c = HT then blanksRest (i + 1) cs else .ok i

theorem skipBlanks_eq (buffer : Slice) (fuel i : Nat) (hi : i ≤ buffer.length) (hf : buffer.length < i + fuel) :
    skipBlanks buffer fuel i = blanksRest i (buffer.bytes.drop i) := by
  induction fuel generalizing i with
  | zero => omega
  | succ fuel ih =>
    rw [skipBlanks]
    cases hd : buffer.bytes.drop i with
    | nil =>
      have hlen := Slice.length_of_drop hi hd
      rw [if_pos (by simpa using hlen.symm), blanksRest]
    | cons c cs =>
      have hlt := Slice.lt_of_drop hd
      rw [if_neg (by omega), Slice.get_ok hd, blanksRest]
      simp only [ok_bind]
      by_cases hb : c = SP ∨ c = HT
      · rw [if_pos hb, if_neg (by tauto), ih (i + 1) (by omega) (by omega), Slice.drop_succ hd]
      · rw [if_neg hb, if_pos (by tauto)]

section Line

variable (ints : Ints) (h : Handler σ) {buffer : Slice}

/-- What the verdict on a line makes the parser do. -/
def realizeEnd (rest : Slice) : LineEnd → Parser σ HeaderStep
  | .closing => pure (.finished rest)
  | .header name value => do
    notifyHeader ints h name value
    pure (.line rest)

/-- How one turn of the loop ends, given the run of the line reader. -/
def realizeLine (buffer : Slice) :
    List (Event Slice) × Outcome HeaderPhase Byte (Except ParserError LineEnd) → Parser σ HeaderStep
  | (_, .live _) => lift (.error (.ret (err .partialData)))
  | (_, .halted (.error e) _) => lift (.error (.ret (err e)))
  | (_, .halted (.ok v) rest) => realizeEnd ints h ⟨buffer.ptr + (buffer.length - rest.length), rest⟩ v

theorem sliceFrom_rest {i : Nat} {rest : List Byte} (hi : i ≤ buffer.length) (hd : buffer.bytes.drop i = rest) :
    buffer.sliceFrom i = .ok ⟨buffer.ptr + (buffer.length - rest.length), rest⟩ := by
  have hlen := Slice.length_of_drop hi hd
  rw [Slice.sliceFrom_ok hi, hd, hlen, Nat.add_sub_cancel]

/-- The code after the value: `advanceNewline`, the callback, `buffer = buffer[i..$]`. -/
theorem lineNewline {i : Nat} {c : Byte} {cs : List Byte} (hc : c = CR ∨ c = LF)
    (hd : buffer.bytes.drop i = c :: cs) (name : Option Slice) (acc : Slice) :
    (lift (advanceNewline buffer i) >>= fun j => notifyHeader ints h name acc >>= fun _ =>
        lift (buffer.sliceFrom j) >>= fun rest => pure (.line rest)) =
      realizeLine ints h buffer (run lineStep (buffer.ptr + i) (.value name acc) (c :: cs)) := by
  have hlt := Slice.lt_of_drop hd
  have hd1 := Slice.drop_succ hd
  rcases hc with rfl | rfl
  · have hstep : lineStep (buffer.ptr + i) (.value name acc) CR = ([], .more (.valueCR name acc)) := rfl
    rw [run_more hstep, advanceNewline_CR hd, prepend_nil]
    cases cs with
    | nil => rfl
    | cons d ds =>
      by_cases hlf : d = LF
      · have hnext : lineStep (buffer.ptr + i + 1) (.valueCR name acc) d = ([], .halt (.ok (.header name acc))) := by
          simp only [lineStep, if_pos hlf]
        have hlt1 := Slice.lt_of_drop hd1
        rw [run_halt hnext]
        simp only [hlf, ne_eq, not_true_eq_false, ↓reduceIte, lift_ok_bind]
        rw [sliceFrom_rest (show i + 2 ≤ buffer.length by omega) (Slice.drop_succ hd1)]
        rfl
      · have hnext : lineStep (buffer.ptr + i + 1) (.valueCR name acc) d = ([], .halt (.error .newLine)) := by
          simp only [lineStep, if_neg hlf]
        rw [run_halt hnext]
        simp only [ne_eq, hlf, not_false_eq_true, ↓reduceIte, lift_error_bind]
        rfl
  · have hstep : lineStep (buffer.ptr + i) (.value name acc) LF = ([], .halt (.ok (.header name acc))) := rfl
    rw [advanceNewline_LF hd, run_halt hstep]
    simp only [lift_ok_bind]
    rw [sliceFrom_rest (show i + 1 ≤ buffer.length by omega) hd1]
    rfl

/-- The value of a line, from where it starts. -/
theorem lineValue_eq (simd : Simd) {start : Nat} (hs : start ≤ buffer.length) (name : Option Slice) :
    (lift (token simd textArgs buffer start) >>= fun i => lift (buffer.slice start i) >>= fun value =>
        lift (advanceNewline buffer i) >>= fun j => notifyHeader ints h name value >>= fun _ =>
        lift (buffer.sliceFrom j) >>= fun rest => pure (.line rest)) =
      realizeLine ints h buffer
        (run lineStep (buffer.ptr + start) (.value name ⟨buffer.ptr + start, []⟩) (buffer.bytes.drop start)) := by
  rw [← Slice.sub_self]
  refine token_phase lineStep buffer simd textArgs (HeaderPhase.value name) (realizeLine ints h buffer) _ start
    (fun _ => rfl) ?_ ?_ ?_ (Nat.le_refl start) hs
  · intro p acc c hc
    rw [textArgs_charMap] at hc
    simp only [lineStep, stepValue, hc, ↓reduceIte]
  · intro p acc c cs hc hn
    rw [textArgs_charMap] at hc
    rw [mem_next_EOL _ rfl] at hn
    have hstep : lineStep p (.value name acc) c = ([], .halt (.error .token)) := by
      simp only [lineStep, stepValue, hc, Bool.false_eq_true, ↓reduceIte,
        if_neg fun h => hn (Or.inl h), if_neg fun h => hn (Or.inr h)]
    rw [run_halt hstep]
    rfl
  · intro j c cs hj hn hd
    rw [Slice.slice_ok hj (Nat.le_of_lt (Slice.lt_of_drop hd)), lift_ok_bind,
      lineNewline ints h ((mem_next_EOL _ rfl).1 hn) hd]

/-- The blanks after the colon, then the value. -/
theorem lineBlanks_eq (simd : Simd) {i : Nat} (hi : i ≤ buffer.length) (name : Slice) :
    (lift (skipBlanks buffer (buffer.length + 1) i) >>= fun start =>
        lift (token simd textArgs buffer start) >>= fun i => lift (buffer.slice start i) >>= fun value =>
        lift (advanceNewline buffer i) >>= fun j => notifyHeader ints h (some name) value >>= fun _ =>
        lift (buffer.sliceFrom j) >>= fun rest => pure (.line rest)) =
      realizeLine ints h buffer (run lineStep (buffer.ptr + i) (.blanks name) (buffer.bytes.drop i)) := by
  rw [skipBlanks_eq buffer _ i hi (by omega)]
  generalize hd : buffer.bytes.drop i = r
  induction r generalizing i with
  | nil => rfl
  | cons c cs ih =>
    rw [blanksRest]
    by_cases hb : c = SP ∨ c = HT
    · have hstep : lineStep (buffer.ptr + i) (.blanks name) c = ([], .more (.blanks name)) := by
        simp only [lineStep, if_pos hb]
      rw [if_pos hb, run_more hstep, prepend_nil]
      exact ih (Slice.lt_of_drop hd) (Slice.drop_succ hd)
    · have hsame : lineStep (buffer.ptr + i) (.blanks name) c =
          lineStep (buffer.ptr + i) (.value (some name) ⟨buffer.ptr + i, []⟩) c := by
        simp only [lineStep, if_neg hb]
      rw [if_neg hb, lift_ok_bind, lineValue_eq ints h simd hi, hd, run_cons_congr hsame]

/-- The name, from the start of its line, and what follows it. -/
theorem lineName_eq (simd : Simd) (buffer : Slice) :
    (lift (token simd headerNameArgs buffer 0) >>= fun i =>
        lift (if i = 0 then .error (.ret (err .noHeaderName))
          else do
            let name ← buffer.slice 0 i
            let i ← skipBlanks buffer (buffer.length + 1) (i + 1)
            .ok (some name, i)) >>= fun x : Option Slice × Nat =>
        lift (token simd textArgs buffer x.2) >>= fun i => lift (buffer.slice x.2 i) >>= fun value =>
        lift (advanceNewline buffer i) >>= fun j => notifyHeader ints h x.1 value >>= fun _ =>
        lift (buffer.sliceFrom j) >>= fun rest => pure (.line rest)) =
      realizeLine ints h buffer (run lineStep buffer.ptr (.name ⟨buffer.ptr, []⟩) buffer.bytes) := by
  refine (token_phase lineStep buffer simd headerNameArgs HeaderPhase.name (realizeLine ints h buffer) _ 0
    (fun _ => rfl) ?_ ?_ ?_ (Nat.le_refl 0) (Nat.zero_le _)).trans (by simp)
  · intro p acc d hd
    rw [headerNameArgs_charMap] at hd
    simp only [lineStep, stepName, hd, ↓reduceIte]
  · intro p acc d ds hd hne
    rw [headerNameArgs_charMap] at hd
    have hcol : d ≠ COLON := fun hh => hne (by simp [hh, headerNameArgs, tokenArgs])
    have hstep : lineStep p (.name acc) d = ([], .halt (.error .token)) := by
      simp only [lineStep, stepName, hd, Bool.false_eq_true, ↓reduceIte, hcol]
    rw [run_halt hstep]
    rfl
  · intro j d ds _ hne hdj
    obtain rfl : d = COLON := by simpa [headerNameArgs, tokenArgs] using hne
    have hlt := Slice.lt_of_drop hdj
    by_cases hj : j = 0
    · have hstep : lineStep (buffer.ptr + j) (.name (buffer.sub 0 j)) COLON = ([], .halt (.error .noHeaderName)) := by
        simp only [lineStep, stepName, if_pos ((sub_zero_nil buffer (Nat.le_of_lt hlt)).2 hj)]
        rfl
      rw [if_pos hj, run_halt hstep]
      rfl
    · have hstep : lineStep (buffer.ptr + j) (.name (buffer.sub 0 j)) COLON =
          ([], .more (.blanks (buffer.sub 0 j))) := by
        simp only [lineStep, stepName, if_neg (mt (sub_zero_nil buffer (Nat.le_of_lt hlt)).1 hj)]
        rfl
      rw [if_neg hj, Slice.slice_ok (Nat.zero_le j) (Nat.le_of_lt hlt), run_more hstep, prepend_nil,
        ← Slice.drop_succ hdj]
      simp only [ok_bind, lift_bind, bind_assoc]
      exact lineBlanks_eq ints h simd (show j + 1 ≤ buffer.length from hlt) (buffer.sub 0 j)

/-- A line that begins with a CR: the end of the header section, or an error. -/
theorem closingCR_eq {buffer : Slice} {cs : List Byte} (hd : buffer.bytes.drop 0 = CR :: cs) :
    (if buffer.length = 1 then lift (.error (.ret (err .partialData)))
      else lift (buffer.get 1) >>= fun d =>
        if d ≠ LF then lift (.error (.ret (err .newLine)))
        else lift (buffer.sliceFrom 2) >>= fun rest => pure (.finished rest)) =
      realizeLine ints h buffer (run lineStep (buffer.ptr + 1) .closingCR cs) := by
  have hd1 : buffer.bytes.drop 1 = cs := Slice.drop_succ hd
  have hlen : buffer.length = 0 + (CR :: cs).length := Slice.length_of_drop (Nat.zero_le _) hd
  rw [List.length_cons] at hlen
  cases cs with
  | nil => rw [if_pos (by simpa using hlen)]; rfl
  | cons d ds =>
    rw [List.length_cons] at hlen
    rw [if_neg (by omega), Slice.get_ok hd1, lift_ok_bind]
    by_cases hlf : d = LF
    · have hnext : lineStep (buffer.ptr + 1) .closingCR d = ([], .halt (.ok .closing)) := by
        simp only [lineStep, if_pos hlf]
      rw [if_neg (by simpa using hlf), run_halt hnext, sliceFrom_rest (show 2 ≤ buffer.length by omega)
        (Slice.drop_succ hd1)]
      rfl
    · have hnext : lineStep (buffer.ptr + 1) .closingCR d = ([], .halt (.error .newLine)) := by
        simp only [lineStep, if_neg hlf]
      rw [if_pos hlf, run_halt hnext]
      rfl

/-- **One turn of the loop** of `parseHeaders` reads one line as `lineStep` does. -/
theorem parseHeaderLine_eq (t : Target) (hasHeader : Bool) (buffer : Slice) :
    parseHeaderLine t h hasHeader buffer =
      realizeLine t.ints h buffer (run lineStep buffer.ptr (.lineStart hasHeader) buffer.bytes) := by
  unfold parseHeaderLine
  cases hb : buffer.bytes with
  | nil => rw [if_pos (by simp [Slice.length, hb])]; rfl
  | cons c cs =>
    have hd : buffer.bytes.drop 0 = c :: cs := by rw [hb]; rfl
    have hlen : buffer.length = cs.length + 1 := by simp [Slice.length, hb]
    rw [if_neg (by omega), Slice.get_ok hd, lift_ok_bind]
    by_cases hcr : c = CR
    · subst hcr
      have hstep : lineStep buffer.ptr (.lineStart hasHeader) CR = ([], .more .closingCR) := rfl
      rw [if_pos rfl, run_more hstep, prepend_nil]
      exact closingCR_eq t.ints h hd
    rw [if_neg hcr]
    by_cases hlf : c = LF
    · have hstep : lineStep buffer.ptr (.lineStart hasHeader) c = ([], .halt (.ok .closing)) := by
        subst hlf; rfl
      rw [if_pos hlf, run_halt hstep, sliceFrom_rest (show 1 ≤ buffer.length by omega) (Slice.drop_succ hd)]
      rfl
    rw [if_neg hlf]
    unfold headerName
    rw [Slice.get_ok hd, ok_bind]
    by_cases hcont : hasHeader = true ∧ (c = SP ∨ c = HT)
    · -- a continuation line: `name` is `null`, and the value starts at once
      have hno : ¬ (hasHeader = false ∨ (c ≠ SP ∧ c ≠ HT)) := by
        rintro (hn | hn)
        · rw [hcont.1] at hn
          cases hn
        · exact hcont.2.elim hn.1 hn.2
      have hsame : lineStep buffer.ptr (.lineStart hasHeader) c =
          lineStep (buffer.ptr + 0) (.value none ⟨buffer.ptr + 0, []⟩) c := by
        simp only [lineStep, if_neg hcr, if_neg hlf, if_pos hcont, Nat.add_zero]
      rw [if_neg hno, run_cons_congr hsame, ← hd]
      exact lineValue_eq t.ints h t.simd (Nat.zero_le _) none
    · have hname : hasHeader = false ∨ (c ≠ SP ∧ c ≠ HT) := by
        cases hasHeader with
        | false => exact Or.inl rfl
        | true => exact Or.inr ⟨fun h => hcont ⟨rfl, Or.inl h⟩, fun h => hcont ⟨rfl, Or.inr h⟩⟩
      have hsame : lineStep buffer.ptr (.lineStart hasHeader) c = lineStep buffer.ptr (.name ⟨buffer.ptr, []⟩) c := by
        simp only [lineStep, if_neg hcr, if_neg hlf, if_neg hcont]
      rw [if_pos hname, run_cons_congr hsame, ← hb]
      simp only [lift_bind, bind_assoc]
      exact lineName_eq t.ints h t.simd buffer

end Line

end Httparsed
