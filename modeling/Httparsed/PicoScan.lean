import Httparsed.Pico

/-!
# What the scanners of picohttpparser read

The plain build and the SSE build of `parse_token`, `ADVANCE_TOKEN` and `get_token_to_eol` read the same:
`scanToken_eq` and `getTokenToEol_eq` replace the fast part by the loop byte by byte that follows it. An SSE
build may stop too early in a token, since its ranges merge some, but never behind the end of one.
-/

namespace Httparsed.Pico

open Grammar

/-! ## Byte classes -/

theorem isControlChar_eq : ∀ c : Byte, isControlChar c = !textByte c :=
  forall_byte (by decide +kernel)

theorem control_eq : ∀ c : Byte, (!isPrintableAscii c && isControlChar c) = !textByte c :=
  forall_byte (by decide +kernel)

theorem textByte_of_printable : ∀ c : Byte, isPrintableAscii c = true → textByte c = true :=
  forall_byte (by decide +kernel)

theorem eolSSE_eq : ∀ c : Byte, inRanges eolSSE c = !textByte c :=
  forall_byte (by decide +kernel)

/-! ## Block loops -/

section

variable {P Q : Byte → Bool} {buf : Slice} {i : Nat}

theorem skipped_mono (h : ∀ c, P c = true → Q c = true) {r : Bool × Nat} (hs : Skipped P buf i r) :
    Skipped Q buf i r :=
  ⟨hs.le, hs.le_length, fun j c hi hj hc => h c (hs.valid j c hi hj hc), hs.found⟩

/-- What a block loop has passed is of the class. -/
theorem skipped_take {r : Bool × Nat} (hs : Skipped P buf 0 r) : ∀ c ∈ buf.bytes.take r.2, P c = true := by
  intro c hc
  obtain ⟨j, hj, hget⟩ := List.mem_take_iff_getElem.1 hc
  exact hs.valid j c (Nat.zero_le _) (by omega) (by rw [List.getElem?_eq_getElem (by omega), hget])

/-- The SSE loop says `found` for a byte of the ranges only. -/
theorem sseLoop_found (cmp : Pcmpestri) {r : List Byte} {fuel left : Nat} {k : Nat}
    (h : sseLoop cmp (padRanges r) r.length buf fuel left i = .ok (true, k)) :
    ∃ c, buf.bytes[k]? = some c ∧ inRanges r c = true := by
  induction fuel generalizing left i with
  | zero => cases h
  | succ fuel ih =>
    rw [sseLoop, load16] at h
    by_cases h16 : i + 16 ≤ buf.length
    · have hl : ((buf.bytes.drop i).take 16).length = 16 := by
        rw [List.length_take, List.length_drop]
        simp only [Slice.length] at h16
        omega
      rw [if_pos h16, ok_bind] at h
      simp only [cmp.least _ _ _ hl, padRanges_take] at h
      split_ifs at h with hx
      · obtain rfl := (Prod.mk.inj (Except.ok.inj h)).2
        have hlt : ((buf.bytes.drop i).take 16).findIdx (inRanges r) < ((buf.bytes.drop i).take 16).length :=
          lt_of_le_of_ne List.findIdx_le_length (by rwa [hl])
        have hget := List.findIdx_getElem (p := inRanges r) (w := hlt)
        refine ⟨_, ?_, hget⟩
        rw [List.getElem_take, List.getElem_drop]
        exact List.getElem?_eq_getElem _
      · cases hsub : sizeSub left 16 with
        | error e =>
          rw [hsub] at h
          cases h
        | ok left' =>
          rw [hsub, ok_bind] at h
          split_ifs at h
          · exact ih h
          · cases h
    · rw [if_neg h16] at h
      cases h

/-- **`findchar_fast`** passes bytes outside the ranges only, and what it has found is in them. -/
theorem findcharFast_spec (simd : Simd) (buf : Slice) {ranges : List Byte}
    (hcover : ∀ c, P c = false → inRanges ranges c = true) :
    ∃ found i, findcharFast simd buf ranges = .ok (found, ⟨buf.ptr + i, buf.bytes.drop i⟩) ∧
      Skipped P buf 0 (found, i) ∧ (found = true → ∃ c, buf.bytes[i]? = some c ∧ inRanges ranges c = true) := by
  cases simd with
  | unrolled => exact ⟨false, 0, rfl, skipped_refl (Nat.zero_le _), fun h => nomatch h⟩
  | sse42 cmp =>
    by_cases h16 : 16 ≤ buf.length
    · obtain ⟨⟨found, i⟩, hloop, hs⟩ := @sseLoop_spec P buf cmp ranges hcover (buf.length + 1)
        (buf.length / 16 * 16) 0 (by omega) (by omega) (by omega) (by omega)
      refine ⟨found, i, ?_, hs, ?_⟩
      · rw [findcharFast, if_pos h16, hloop, ok_bind]
        simp only [Slice.sliceFrom_ok hs.le_length, ok_bind]
      · rintro rfl
        exact sseLoop_found cmp hloop
    · exact ⟨false, 0, by rw [findcharFast, if_neg h16]; rfl, skipped_refl (Nat.zero_le _), fun h => nomatch h⟩

theorem eolUnrolled_spec (fuel : Nat) (hi : i ≤ buf.length) (hf : buf.length - i < fuel) :
    ∃ found k, eolUnrolled buf fuel i = .ok (found, k) ∧ Skipped textByte buf i (found, k) ∧
      (found = true → ∃ c, buf.bytes[k]? = some c ∧ textByte c = false) := by
  induction fuel generalizing i with
  | zero => omega
  | succ fuel ih =>
    rw [eolUnrolled, sizeSub_ok hi, ok_bind]
    by_cases h8 : 8 ≤ buf.length - i
    · obtain ⟨⟨nonPrintable, k⟩, hr, hs, hk⟩ := unrolled8_spec isPrintableAscii buf 8 i (by omega)
      have htext := skipped_mono textByte_of_printable hs
      rw [if_pos h8, hr, ok_bind]
      cases nonPrintable with
      | false =>
        obtain rfl : k = i + 8 := hk rfl
        obtain ⟨found, k', hrest, hs', hfound⟩ := ih hs.le_length (by omega)
        exact ⟨found, k', hrest, htext.trans hs', hfound⟩
      | true =>
        have hlt : k < buf.length := hs.found rfl
        have hle : i ≤ k := hs.le
        obtain ⟨c, hc⟩ := get_of_lt buf hlt
        have hget := getElem?_of_get hc
        simp only [hc, ok_bind, if_true]
        by_cases hctl : isControlChar c = true
        · rw [if_pos hctl]
          refine ⟨true, k, rfl, ⟨hle, htext.le_length, htext.valid, fun _ => hlt⟩, fun _ => ⟨c, hget, ?_⟩⟩
          simpa [isControlChar_eq] using hctl
        · rw [if_neg hctl]
          have hone : Skipped textByte buf k (false, k + 1) := by
            refine ⟨Nat.le_succ k, hlt, ?_, fun h => nomatch h⟩
            intro j d hkj hjk hd
            obtain rfl : j = k := by
              simp only at hjk
              omega
            rw [hget] at hd
            obtain rfl := Option.some.inj hd
            simpa [isControlChar_eq] using hctl
          obtain ⟨found, k', hrest, hs', hfound⟩ := ih (i := k + 1) hlt (by omega)
          have hpassed : Skipped textByte buf i (false, k) := ⟨hle, htext.le_length, htext.valid, fun h => nomatch h⟩
          exact ⟨found, k', hrest, (hpassed.trans hone).trans hs', hfound⟩
    · rw [if_neg h8]
      exact ⟨false, i, rfl, skipped_refl hi, fun h => nomatch h⟩

/-- The fast part of `get_token_to_eol` stops early only at a byte that ends the text. -/
theorem eolFast_spec (simd : Simd) (buf : Slice) :
    ∃ found i, eolFast simd buf = .ok (found, ⟨buf.ptr + i, buf.bytes.drop i⟩) ∧
      Skipped textByte buf 0 (found, i) ∧ (found = true → ∃ c, buf.bytes[i]? = some c ∧ textByte c = false) := by
  cases simd with
  | unrolled =>
    obtain ⟨found, k, hr, hs, hfound⟩ := eolUnrolled_spec (buf.length + 1) (Nat.zero_le buf.length) (by omega)
    refine ⟨found, k, ?_, hs, hfound⟩
    rw [eolFast, hr, ok_bind]
    simp only [Slice.sliceFrom_ok hs.le_length, ok_bind]
  | sse42 cmp =>
    obtain ⟨found, i, hr, hs, hfound⟩ := findcharFast_spec (.sse42 cmp) buf
      fun c (hc : textByte c = false) => (eolSSE_eq c).trans (by rw [hc]; rfl)
    refine ⟨found, i, hr, hs, fun h => ?_⟩
    obtain ⟨c, hc, hin⟩ := hfound h
    exact ⟨c, hc, by simpa [eolSSE_eq] using hin⟩

end

/-! ## Tokens -/

/-- The scan byte by byte. -/
def scanRest (P : Byte → Bool) (next : Byte) : Nat → List Byte → Except Stop Slice
  | _, [] => .error (.ret (-2))
  | p, c :: cs =>
    if c = next then .ok ⟨p, c :: cs⟩ else if P c = true then scanRest P next (p + 1) cs else .error (.ret (-1))

section

variable {P bad : Byte → Bool} {next : Byte} {p : Nat}

/-- What `next` and `bad` leave over is the class `P`. -/
structure Leaves (next : Byte) (bad P : Byte → Bool) : Prop where
  next_out : P next = false
  bad_iff : ∀ c, c ≠ next → bad c = !P c

theorem scanRest_skip (h : P next = false) {w : List Byte} (hw : ∀ c ∈ w, P c = true) (rest : List Byte) :
    scanRest P next p (w ++ rest) = scanRest P next (p + w.length) rest := by
  induction w generalizing p with
  | nil => rfl
  | cons c w ih =>
    have hc : P c = true := hw c (List.mem_cons_self ..)
    have hne : c ≠ next := by
      rintro rfl
      rw [h] at hc
      cases hc
    rw [List.cons_append, scanRest, if_neg hne, if_pos hc, ih fun d hd => hw d (List.mem_cons_of_mem _ hd),
      List.length_cons, Nat.add_assoc, Nat.add_comm 1]

theorem scanLoop_eq (h : Leaves next bad P) {bytes : List Byte} (hne : bytes ≠ []) :
    scanLoop next bad p bytes = scanRest P next p bytes := by
  induction bytes generalizing p with
  | nil => exact absurd rfl hne
  | cons c cs ih =>
    rw [scanLoop, scanRest]
    by_cases hc : c = next
    · rw [if_pos hc, if_pos hc]
    · rw [if_neg hc, if_neg hc, h.bad_iff c hc]
      by_cases hP : P c = true
      · rw [if_neg (by rw [hP]; exact Bool.false_ne_true), if_pos hP]
        by_cases hcs : cs = []
        · rw [if_pos hcs, hcs]
          rfl
        · rw [if_neg hcs, ih hcs]
      · rw [if_pos (by simpa using hP), if_neg hP]

/-- **A token**, in either build, is the plain scan up to the next character. -/
theorem scanToken_eq (simd : Simd) {ranges : List Byte} (h : Leaves next bad P)
    (hcover : ∀ c, P c = false → inRanges ranges c = true) (start : Slice) :
    scanToken simd ranges next bad start =
      scanRest P next start.ptr start.bytes >>= fun buf => .ok (upTo start buf, buf) := by
  obtain ⟨found, i, hfast, hs, -⟩ := findcharFast_spec simd start hcover
  have hlen : (start.bytes.take i).length = i := List.length_take_of_le hs.le_length
  have hskip : scanRest P next start.ptr start.bytes = scanRest P next (start.ptr + i) (start.bytes.drop i) := by
    conv_lhs => rw [← List.take_append_drop i start.bytes, scanRest_skip h.next_out (skipped_take hs), hlen]
  rw [scanToken, hfast, ok_bind, hskip]
  by_cases hend : start.bytes.drop i = []
  · have hfound : found = false := by
      cases found with
      | false => rfl
      | true =>
        have hlt : i < start.bytes.length := hs.found rfl
        exact absurd hend (by rw [List.drop_eq_nil_iff]; omega)
    rw [hfound, hend]
    rfl
  · simp only
    rw [scanLoop_eq h hend]
    split_ifs with hfound
    · have hlen' : ¬ (Slice.mk (start.ptr + i) (start.bytes.drop i)).length = 0 := by
        rwa [Slice.length, List.length_eq_zero_iff]
      rw [checkEof, if_neg hlen']
      rfl
    · rfl

/-- A token is read up to the first byte that is not of its class. -/
theorem scanRest_ok_iff (h : P next = false) {bytes : List Byte} {r : Slice} :
    scanRest P next p bytes = .ok r ↔
      ∃ w tl, bytes = w ++ next :: tl ∧ (∀ c ∈ w, P c = true) ∧ r = ⟨p + w.length, next :: tl⟩ := by
  constructor
  · intro hr
    induction bytes generalizing p with
    | nil => cases hr
    | cons c cs ih =>
      rw [scanRest] at hr
      split_ifs at hr with hc hP
      · obtain rfl := Except.ok.inj hr
        exact ⟨[], cs, by rw [hc]; rfl, fun d hd => absurd hd List.not_mem_nil, by rw [hc]; rfl⟩
      · obtain ⟨w, tl, rfl, hw, rfl⟩ := ih hr
        refine ⟨c :: w, tl, rfl, ?_, by rw [List.length_cons, Nat.add_assoc, Nat.add_comm 1]⟩
        intro d hd
        rcases List.mem_cons.1 hd with rfl | hd
        · exact hP
        · exact hw d hd
  · rintro ⟨w, tl, rfl, hw, rfl⟩
    rw [scanRest_skip h hw, scanRest, if_pos rfl]

end

theorem upTo_append (p : Nat) (w tl : List Byte) : upTo ⟨p, w ++ tl⟩ ⟨p + w.length, tl⟩ = ⟨p, w⟩ := by
  rw [upTo, Slice.sub, Nat.add_sub_cancel_left, Nat.sub_zero, List.drop_zero, List.take_left' rfl]
  rfl

theorem isToken_leaves {next : Byte} (h : isToken next = false) :
    Leaves next (fun c => !isToken c) isToken :=
  ⟨h, fun _ _ => rfl⟩

theorem isToken_cover : ∀ c : Byte, isToken c = false → inRanges tokenSSE c = true :=
  forall_byte (by decide +kernel)

theorem uriByte_leaves :
    Leaves SP (fun c => !isPrintableAscii c && (decide (c < 0x20) || c == 0x7F)) uriByte :=
  ⟨by decide, forall_byte (by decide +kernel)⟩

theorem uriByte_cover : ∀ c : Byte, uriByte c = false → inRanges [0x00, 0x20, 0x7F, 0x7F] c = true :=
  forall_byte (by decide +kernel)

theorem parseToken_eq (simd : Simd) {next_char : Byte} (h : isToken next_char = false) (buf : Slice) :
    parseToken simd next_char buf =
      scanRest isToken next_char buf.ptr buf.bytes >>= fun r => .ok (upTo buf r, r) :=
  scanToken_eq simd (isToken_leaves h) isToken_cover buf

theorem advanceToken_eq (simd : Simd) (buf : Slice) :
    advanceToken simd buf = scanRest uriByte SP buf.ptr buf.bytes >>= fun r => .ok (upTo buf r, r) :=
  scanToken_eq simd uriByte_leaves uriByte_cover buf

/-! ## Texts -/

section

variable {p : Nat}

theorem eolLoop_skip {w : List Byte} (hw : ∀ c ∈ w, textByte c = true) (rest : List Byte) :
    eolLoop p (w ++ rest) = eolLoop (p + w.length) rest := by
  induction w generalizing p with
  | nil => rfl
  | cons c w ih =>
    have hc : (!isPrintableAscii c && isControlChar c) = false := by
      rw [control_eq, hw c (List.mem_cons_self ..)]
      rfl
    rw [List.cons_append, eolLoop, hc, if_neg Bool.false_ne_true, ih fun d hd => hw d (List.mem_cons_of_mem _ hd),
      List.length_cons, Nat.add_assoc, Nat.add_comm 1]

theorem eolLoop_stop {c : Byte} (hc : textByte c = false) (cs : List Byte) :
    eolLoop p (c :: cs) = .ok ⟨p, c :: cs⟩ := by
  rw [eolLoop, control_eq, hc]
  rfl

theorem eolLoop_ok_iff {bytes : List Byte} {r : Slice} :
    eolLoop p bytes = .ok r ↔
      ∃ w c tl, bytes = w ++ c :: tl ∧ (∀ d ∈ w, textByte d = true) ∧ textByte c = false ∧
        r = ⟨p + w.length, c :: tl⟩ := by
  constructor
  · intro hr
    induction bytes generalizing p with
    | nil => cases hr
    | cons c cs ih =>
      rw [eolLoop, control_eq] at hr
      split_ifs at hr with hc
      · obtain rfl := Except.ok.inj hr
        exact ⟨[], c, cs, rfl, fun d hd => absurd hd List.not_mem_nil, by simpa using hc, rfl⟩
      · obtain ⟨w, d, tl, rfl, hw, hd, rfl⟩ := ih hr
        refine ⟨c :: w, d, tl, rfl, ?_, hd, by rw [List.length_cons, Nat.add_assoc, Nat.add_comm 1]⟩
        intro e he
        rcases List.mem_cons.1 he with rfl | he
        · simpa using hc
        · exact hw e he
  · rintro ⟨w, c, tl, rfl, hw, hc, rfl⟩
    rw [eolLoop_skip hw, eolLoop_stop hc]

/-- **A text up to its end of line**, in either build, is the plain scan to the first control character. -/
theorem getTokenToEol_eq (simd : Simd) (buf : Slice) :
    getTokenToEol simd buf = eolLoop buf.ptr buf.bytes >>= foundCtl buf := by
  obtain ⟨found, i, hfast, hs, hfound⟩ := eolFast_spec simd buf
  have hlen : (buf.bytes.take i).length = i := List.length_take_of_le hs.le_length
  have hskip : eolLoop buf.ptr buf.bytes = eolLoop (buf.ptr + i) (buf.bytes.drop i) := by
    conv_lhs => rw [← List.take_append_drop i buf.bytes, eolLoop_skip (skipped_take hs), hlen]
  rw [getTokenToEol, hfast, ok_bind, hskip]
  cases found with
  | false => rfl
  | true =>
    obtain ⟨c, hc, htext⟩ := hfound rfl
    obtain ⟨hlt, hget⟩ := List.getElem?_eq_some_iff.1 hc
    rw [List.drop_eq_getElem_cons hlt, hget, eolLoop_stop htext]
    rfl

end

end Httparsed.Pico
