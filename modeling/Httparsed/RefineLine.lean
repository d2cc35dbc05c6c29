import Httparsed.Machine

/-!
# The start lines refine their readers

`parseRequestLine` and `parseStatusLine` do what `requestStep` and `statusStep` do on the bytes of the
buffer: the same callbacks in the same order, the same early return, the same rest. The argument goes
through the sections from the last to the first. Each starts with a call of `parseToken`, and `token_phase`
is the one induction about such a call: as long as the byte is valid, the scanner moves its index and the
reader its accumulator.
-/

namespace Httparsed

open Transducer

/-! ## Spec lemmas of the small steps -/

/-- `scan`, with its negative codes as early returns. -/
def scanToken (a : TokenArgs) : Nat → List Byte → Except Stop Nat
  | _, [] => .error (.ret (err .partialData))
  | i, c :: cs =>
    if c ∈ a.next then .ok i
    else if a.charMap c = false then .error (.ret (err .token))
    else scanToken a (i + 1) cs

theorem scanToken_eq (a : TokenArgs) (i : Nat) (r : List Byte) :
    scanToken a i r = if (scan a i r).1 < 0 then .error (.ret (scan a i r).1) else .ok (scan a i r).2 := by
  induction r generalizing i with
  | nil => rfl
  | cons c cs ih =>
    simp only [scanToken, scan]
    by_cases hn : c ∈ a.next
    · simp [hn]
    · by_cases hc : a.charMap c = false
      · simp only [hn, hc, ↓reduceIte]
        rfl
      · simp only [hn, hc, ↓reduceIte]
        exact ih (i + 1)

theorem token_eq (simd : Simd) (a : TokenArgs) (buffer : Slice) (i : Nat) (hi : i ≤ buffer.length) :
    token simd a buffer i = scanToken a i (buffer.bytes.drop i) := by
  rw [scanToken_eq, token, parseToken_eq simd a buffer i hi]
  rfl

section

variable {buffer : Slice} {i : Nat} {c d : Byte} {cs : List Byte}

theorem advanceNewline_LF (h : buffer.bytes.drop i = LF :: cs) : advanceNewline buffer i = .ok (i + 1) := by
  unfold advanceNewline
  rw [if_pos (Slice.lt_of_drop h), Slice.get_ok h]
  rfl

theorem advanceNewline_CR (h : buffer.bytes.drop i = CR :: cs) :
    advanceNewline buffer i =
      match cs with
      | [] => .error (.ret (err .partialData))
      | d :: _ => if d ≠ LF then .error (.ret (err .newLine)) else .ok (i + 2) := by
  have hlt := Slice.lt_of_drop h
  have hlen := Slice.length_of_drop (Nat.le_of_lt hlt) h
  unfold advanceNewline
  rw [if_pos hlt, Slice.get_ok h]
  simp only [ok_bind, ↓reduceIte]
  cases cs with
  | nil => rw [if_pos (by simpa using hlen.symm)]
  | cons d ds =>
    rw [if_neg (by simp only [List.length_cons] at hlen; omega), Slice.get_ok (Slice.drop_succ h)]
    rfl

/-- `skipSpaces`, over the bytes that remain after the space it starts on. -/
def skipRest (e : ParserError) : Nat → List Byte → Except Stop Nat
  | _, [] => .error (.ret (err .partialData))
  | i, c :: cs =>
    if c = CR ∨ c = LF then .error (.ret (err e)) else if c = SP then skipRest e (i + 1) cs else .ok i

theorem skipSpaces_eq (e : ParserError) (buffer : Slice) (fuel i : Nat) (hi : i < buffer.length)
    (hf : buffer.length ≤ i + fuel) :
    skipSpaces e buffer fuel i = skipRest e (i + 1) (buffer.bytes.drop (i + 1)) := by
  induction fuel generalizing i with
  | zero => omega
  | succ fuel ih =>
    cases hd : buffer.bytes.drop (i + 1) with
    | nil =>
      have hlen := Slice.length_of_drop (s := buffer) (i := i + 1) (by omega) hd
      rw [skipSpaces, if_pos (by simpa using hlen), skipRest]
    | cons c cs =>
      have hlt := Slice.lt_of_drop hd
      rw [skipSpaces, if_neg (by omega), Slice.get_ok hd, skipRest]
      simp only [ok_bind]
      by_cases hn : c = CR ∨ c = LF
      · rw [if_pos hn, if_pos hn]
      · rw [if_neg hn, if_neg hn]
        by_cases hs : c = SP
        · rw [if_pos hs, if_pos hs, ih (i + 1) (by omega) (by omega), Slice.drop_succ hd]
        · rw [if_neg hs, if_neg hs]

end

/-! ## What a run of a start line makes the parser do -/

section Realize

variable {σ τ : Type} (h : Handler σ)

def notifyAll : List (Event Slice) → Parser σ PUnit
  | [] => pure ⟨⟩
  | e :: es => do
    h.notify e
    notifyAll es

theorem notifyAll_append (a b : List (Event Slice)) :
    notifyAll h (a ++ b) = notifyAll h a >>= fun _ => notifyAll h b := by
  induction a with
  | nil => rfl
  | cons e a ih => simp only [List.cons_append, notifyAll, ih, bind_assoc]

/-- How a start-line function ends: with the rest of the buffer, or early. -/
def lineEnd (buffer : Slice) : Outcome τ Byte (Except ParserError PUnit) → Except Stop Slice
  | .live _ => .error (.ret (err .partialData))
  | .halted (.error e) _ => .error (.ret (err e))
  | .halted (.ok _) rest => .ok ⟨buffer.ptr + (buffer.length - rest.length), rest⟩

/-- Deliver the callbacks of a run, then end as the run does. -/
def realize (buffer : Slice) (r : List (Event Slice) × Outcome τ Byte (Except ParserError PUnit)) :
    Parser σ Slice := do
  notifyAll h r.1
  lift (lineEnd buffer r.2)

variable {buffer : Slice}

theorem realize_prepend (o : List (Event Slice)) (r : List (Event Slice) × Outcome τ Byte (Except ParserError PUnit)) :
    realize h buffer (prepend o r) = notifyAll h o >>= fun _ => realize h buffer r := by
  simp only [realize, prepend_fst, prepend_snd, notifyAll_append, bind_assoc]

theorem realize_cons (e : Event Slice) (r : List (Event Slice) × Outcome τ Byte (Except ParserError PUnit)) :
    realize h buffer (prepend [e] r) = h.notify e >>= fun _ => realize h buffer r := by
  rw [realize_prepend]
  simp only [notifyAll, bind_assoc, pure_bind]

theorem realize_nil (out : Outcome τ Byte (Except ParserError PUnit)) :
    realize h buffer ([], out) = lift (lineEnd buffer out) := rfl

/-- The end of a line: the rest starts at `i`. -/
theorem sliceFrom_realize {i : Nat} {rest : List Byte} (hi : i ≤ buffer.length) (hd : buffer.bytes.drop i = rest) :
    (lift (buffer.sliceFrom i) : Parser σ Slice) =
      realize h buffer ([], (.halted (.ok ⟨⟩) rest : Outcome τ Byte _)) := by
  have hlen := Slice.length_of_drop hi hd
  rw [realize_nil, lineEnd, Slice.sliceFrom_ok hi, hd, hlen, Nat.add_sub_cancel]

/-- **The end of a line**: the last callbacks `o`, then `advanceNewline` and `buffer = buffer[i..$]`. The
reader leaves `last` on the CR for `lineCR`, or is done with the line on a lone LF. -/
theorem newline_phase {step : Step τ Byte (Event Slice) (Except ParserError PUnit)} {last lineCR : τ}
    {o : List (Event Slice)}
    (hCR : ∀ p, step p last CR = (o, .more lineCR)) (hLF : ∀ p, step p last LF = (o, .halt (.ok ⟨⟩)))
    (hCRLF : ∀ p c, step p lineCR c = if c = LF then ([], .halt (.ok ⟨⟩)) else ([], .halt (.error .newLine)))
    {i : Nat} {c : Byte} {cs : List Byte} (hc : c = CR ∨ c = LF) (hd : buffer.bytes.drop i = c :: cs) :
    (notifyAll h o >>= fun _ => lift (advanceNewline buffer i) >>= fun j => lift (buffer.sliceFrom j)) =
      realize h buffer (run step (buffer.ptr + i) last (c :: cs)) := by
  have hlt := Slice.lt_of_drop hd
  have hd1 := Slice.drop_succ hd
  rcases hc with rfl | rfl
  · rw [run_more (hCR _), realize_prepend, advanceNewline_CR hd]
    cases cs with
    | nil => rfl
    | cons d ds =>
      by_cases hlf : d = LF
      · have hnext : step (buffer.ptr + i + 1) lineCR d = ([], .halt (.ok ⟨⟩)) := by rw [hCRLF, if_pos hlf]
        have hlt1 := Slice.lt_of_drop hd1
        rw [run_halt hnext]
        simp only [hlf, ne_eq, not_true_eq_false, ↓reduceIte, lift_ok_bind]
        rw [sliceFrom_realize h (by omega) (Slice.drop_succ hd1)]
      · have hnext : step (buffer.ptr + i + 1) lineCR d = ([], .halt (.error .newLine)) := by rw [hCRLF, if_neg hlf]
        rw [run_halt hnext]
        simp only [ne_eq, hlf, not_false_eq_true, ↓reduceIte, lift_error_bind]
        rfl
  · rw [advanceNewline_LF hd, run_halt (hLF _)]
    simp only [lift_ok_bind]
    rw [sliceFrom_realize h (τ := τ) (by omega) hd1, ← realize_prepend]
    simp only [prepend, List.append_nil]

end Realize

/-! ## The induction about a token -/

section Phase

variable {σ τ ο ν β : Type} (step : Step τ Byte ο ν) (buffer : Slice)

/-- **One call of `parseToken`.** `phase acc` is the state of the reader inside the token, `real` what a run
makes the parser do, `cont` the code after the call. If reader and code agree at a next character, they
agree from any index inside the token. -/
theorem token_phase (simd : Simd) (a : TokenArgs) (phase : Slice → τ) (real : List ο × Outcome τ Byte ν → Parser σ β)
    (cont : Nat → Parser σ β) (start : Nat)
    (hlive : ∀ acc, real ([], .live (phase acc)) = lift (.error (.ret (err .partialData))))
    (hvalid : ∀ p acc c, a.charMap c = true → step p (phase acc) c = ([], .more (phase (acc.push c))))
    (hbad : ∀ p acc c cs, a.charMap c = false → c ∉ a.next →
      real (run step p (phase acc) (c :: cs)) = lift (.error (.ret (err .token))))
    (hstop : ∀ i c cs, start ≤ i → c ∈ a.next → buffer.bytes.drop i = c :: cs →
      cont i = real (run step (buffer.ptr + i) (phase (buffer.sub start i)) (c :: cs)))
    {i : Nat} (hs : start ≤ i) (hi : i ≤ buffer.length) :
    (lift (token simd a buffer i) >>= cont) =
      real (run step (buffer.ptr + i) (phase (buffer.sub start i)) (buffer.bytes.drop i)) := by
  rw [token_eq simd a buffer i hi]
  generalize hd : buffer.bytes.drop i = r
  induction r generalizing i with
  | nil => rw [scanToken, lift_error_bind, run_nil, hlive]
  | cons c cs ih =>
    have hlt := Slice.lt_of_drop hd
    rw [scanToken]
    by_cases hn : c ∈ a.next
    · rw [if_pos hn, lift_ok_bind, hstop i c cs hs hn hd]
    · rw [if_neg hn]
      by_cases hc : a.charMap c = false
      · rw [if_pos hc, lift_error_bind, hbad _ _ _ _ hc hn]
      · rw [if_neg hc, run_more (hvalid _ _ c (by simpa using hc)), prepend_nil, Slice.sub_push hs hd]
        exact ih (by omega) (by omega) (Slice.drop_succ hd)

/-- **One run of `skipSpaces`**, from the space at `i`: `spaces` is the state of the reader among spaces. -/
theorem skipSpaces_phase (e : ParserError) (spaces : τ) (real : List ο × Outcome τ Byte ν → Parser σ β)
    (cont : Nat → Parser σ β)
    (hlive : real ([], .live spaces) = lift (.error (.ret (err .partialData))))
    (hspace : ∀ p, step p spaces SP = ([], .more spaces))
    (hnewline : ∀ p c cs, c = CR ∨ c = LF → real (run step p spaces (c :: cs)) = lift (.error (.ret (err e))))
    (hstop : ∀ i c cs, c ≠ CR → c ≠ LF → c ≠ SP → buffer.bytes.drop i = c :: cs →
      cont i = real (run step (buffer.ptr + i) spaces (c :: cs)))
    {i : Nat} (hi : i < buffer.length) :
    (lift (skipSpaces e buffer (buffer.length + 1) i) >>= cont) =
      real (run step (buffer.ptr + (i + 1)) spaces (buffer.bytes.drop (i + 1))) := by
  rw [skipSpaces_eq e buffer _ i hi (by omega)]
  clear hi
  generalize hj : i + 1 = j
  clear hj
  generalize hd : buffer.bytes.drop j = r
  induction r generalizing j with
  | nil => rw [skipRest, lift_error_bind, run_nil, hlive]
  | cons c cs ih =>
    rw [skipRest]
    by_cases hn : c = CR ∨ c = LF
    · rw [if_pos hn, lift_error_bind, hnewline _ _ _ hn]
    · rw [if_neg hn]
      by_cases hs : c = SP
      · subst hs
        rw [if_pos rfl, run_more (hspace _), prepend_nil]
        exact ih (j + 1) (Slice.drop_succ hd)
      · rw [if_neg hs, lift_ok_bind]
        exact hstop j c cs (fun h => hn (Or.inl h)) (fun h => hn (Or.inr h)) hs hd

end Phase

/-! ## The template arguments, in the reader's words -/

theorem methodArgs_charMap (c : Byte) : methodArgs.charMap c = tokenByte c := buildValidCharMap_eq _ c

theorem headerNameArgs_charMap (c : Byte) : headerNameArgs.charMap c = tokenByte c := buildValidCharMap_eq _ c

theorem uriArgs_charMap (c : Byte) : uriArgs.charMap c = uriByte c := by
  rw [uriByte_eq]; exact buildValidCharMap_eq _ c

theorem requestVersionArgs_charMap (c : Byte) : requestVersionArgs.charMap c = versionByte c := by
  rw [versionByte_eq]; exact buildValidCharMap_eq _ c

theorem statusVersionArgs_charMap (c : Byte) : statusVersionArgs.charMap c = versionByte c := by
  rw [versionByte_eq]; exact buildValidCharMap_eq _ c

theorem textArgs_charMap (c : Byte) : textArgs.charMap c = textByte c := by
  rw [textByte_eq]; exact buildValidCharMap_eq _ c

theorem mem_next_SP {c : Byte} (a : TokenArgs) (ha : a.next = [SP]) : c ∈ a.next ↔ c = SP := by simp [ha]

theorem mem_next_EOL {c : Byte} (a : TokenArgs) (ha : a.next = [CR, LF]) : c ∈ a.next ↔ c = CR ∨ c = LF := by
  simp [ha]

/-! ## `parseRequestLine` -/

section Request

variable {σ : Type} (simd : Simd) (h : Handler σ) (buffer : Slice)

theorem requestVersion_eq {i : Nat} (hi : i ≤ buffer.length) :
    requestVersion simd h buffer i =
      realize h buffer (run requestStep (buffer.ptr + i) (.version ⟨buffer.ptr + i, []⟩) (buffer.bytes.drop i)) := by
  unfold requestVersion
  rw [← Slice.sub_self]
  refine token_phase requestStep buffer simd requestVersionArgs RequestState.version (realize h buffer) _ i
    (fun _ => rfl) ?_ ?_ ?_ (Nat.le_refl i) hi
  · intro p acc c hc
    rw [requestVersionArgs_charMap] at hc
    simp only [requestStep, stepVersion, hc, ↓reduceIte]
  · intro p acc c cs hc hn
    rw [requestVersionArgs_charMap] at hc
    rw [mem_next_EOL _ rfl] at hn
    have hstep : requestStep p (.version acc) c = ([], .halt (.error .token)) := by
      simp only [requestStep, stepVersion, hc, Bool.false_eq_true, ↓reduceIte,
        if_neg fun h => hn (Or.inl h), if_neg fun h => hn (Or.inr h)]
    rw [run_halt hstep]
    rfl
  · intro j c cs hj hn hd
    rw [mem_next_EOL _ rfl] at hn
    have hlt := Slice.lt_of_drop hd
    rw [Slice.slice_ok hj (by omega), lift_ok_bind,
      ← newline_phase h (fun _ => rfl) (fun _ => rfl) (fun _ _ => rfl) hn hd]
    simp only [notifyAll, bind_pure_unit]

theorem requestUri_eq {i : Nat} (hi : i ≤ buffer.length) :
    requestUri simd h buffer i =
      realize h buffer (run requestStep (buffer.ptr + i) (.uri ⟨buffer.ptr + i, []⟩) (buffer.bytes.drop i)) := by
  unfold requestUri
  rw [← Slice.sub_self]
  refine token_phase requestStep buffer simd uriArgs RequestState.uri (realize h buffer) _ i
    (fun _ => rfl) ?_ ?_ ?_ (Nat.le_refl i) hi
  · intro p acc c hc
    rw [uriArgs_charMap] at hc
    simp only [requestStep, stepUri, hc, ↓reduceIte]
  · intro p acc c cs hc hn
    rw [uriArgs_charMap] at hc
    rw [mem_next_SP _ rfl] at hn
    have hstep : requestStep p (.uri acc) c = ([], .halt (.error .token)) := by
      simp only [requestStep, stepUri, hc, Bool.false_eq_true, ↓reduceIte, hn]
    rw [run_halt hstep]
    rfl
  · intro j c cs hj hn hd
    obtain rfl := (mem_next_SP _ rfl).1 hn
    have hlt := Slice.lt_of_drop hd
    have hstep (acc : Slice) : requestStep (buffer.ptr + j) (.uri acc) SP = ([.onUri acc], .more .uriSpaces) := rfl
    rw [Slice.slice_ok hj (by omega), lift_ok_bind, run_more (hstep _), realize_cons, ← Slice.drop_succ hd]
    congr 1
    funext _
    refine skipSpaces_phase requestStep buffer .noVersion .uriSpaces (realize h buffer) _ rfl (fun _ => rfl) ?_ ?_ hlt
    · intro p d ds hd'
      have hnext : requestStep p .uriSpaces d = ([], .halt (.error .noVersion)) := by
        simp only [requestStep, if_pos hd']
      rw [run_halt hnext]
      rfl
    · intro k d ds h1 h2 h3 hk
      have hsame : requestStep (buffer.ptr + k) .uriSpaces d =
          requestStep (buffer.ptr + k) (.version ⟨buffer.ptr + k, []⟩) d := by
        simp only [requestStep, h1, h2, h3, or_self, ↓reduceIte]
      rw [requestVersion_eq simd h buffer (Nat.le_of_lt (Slice.lt_of_drop hk)), hk, run_cons_congr hsame]

/-- The bytes from `0` to `i` are none only for `i = 0`. -/
theorem sub_zero_nil {i : Nat} (hi : i ≤ buffer.length) : (buffer.sub 0 i).bytes = [] ↔ i = 0 := by
  rw [← List.length_eq_zero_iff]
  simp only [Slice.sub, List.drop_zero, Nat.sub_zero, List.length_take]
  simp only [Slice.length] at hi
  omega

/-- **`parseRequestLine`** reads its buffer as `requestStep` does. -/
theorem parseRequestLine_eq :
    parseRequestLine simd h buffer =
      realize h buffer (run requestStep buffer.ptr (.method ⟨buffer.ptr, []⟩) buffer.bytes) := by
  unfold parseRequestLine
  refine (token_phase requestStep buffer simd methodArgs RequestState.method (realize h buffer) _ 0
    (fun _ => rfl) ?_ ?_ ?_ (Nat.le_refl 0) (Nat.zero_le _)).trans (by simp)
  · intro p acc c hc
    rw [methodArgs_charMap] at hc
    simp only [requestStep, stepMethod, hc, ↓reduceIte]
  · intro p acc c cs hc hn
    rw [methodArgs_charMap] at hc
    rw [mem_next_SP _ rfl] at hn
    have hstep : requestStep p (.method acc) c = ([], .halt (.error .token)) := by
      simp only [requestStep, stepMethod, hc, Bool.false_eq_true, ↓reduceIte, hn]
    rw [run_halt hstep]
    rfl
  · intro j c cs _ hn hd
    obtain rfl := (mem_next_SP _ rfl).1 hn
    have hlt := Slice.lt_of_drop hd
    by_cases hj : j = 0
    · have hstep : requestStep (buffer.ptr + j) (.method (buffer.sub 0 j)) SP = ([], .halt (.error .noMethod)) := by
        simp only [requestStep, stepMethod, if_pos ((sub_zero_nil buffer (Nat.le_of_lt hlt)).2 hj)]
        rfl
      rw [if_pos hj, run_halt hstep]
      rfl
    · have hstep : requestStep (buffer.ptr + j) (.method (buffer.sub 0 j)) SP =
          ([.onMethod (buffer.sub 0 j)], .more .methodSpaces) := by
        simp only [requestStep, stepMethod, if_neg (mt (sub_zero_nil buffer (Nat.le_of_lt hlt)).1 hj)]
        rfl
      rw [if_neg hj, Slice.slice_ok (Nat.zero_le j) (Nat.le_of_lt hlt), lift_ok_bind, run_more hstep, realize_cons,
        ← Slice.drop_succ hd]
      congr 1
      funext _
      refine skipSpaces_phase requestStep buffer .noUri .methodSpaces (realize h buffer) _ rfl (fun _ => rfl) ?_ ?_ hlt
      · intro p d ds hd'
        have hnext : requestStep p .methodSpaces d = ([], .halt (.error .noUri)) := by
          simp only [requestStep, if_pos hd']
        rw [run_halt hnext]
        rfl
      · intro k d ds h1 h2 h3 hk
        have hsame : requestStep (buffer.ptr + k) .methodSpaces d =
            requestStep (buffer.ptr + k) (.uri ⟨buffer.ptr + k, []⟩) d := by
          simp only [requestStep, h1, h2, h3, or_self, ↓reduceIte]
        rw [requestUri_eq simd h buffer (Nat.le_of_lt (Slice.lt_of_drop hk)), hk, run_cons_congr hsame]

end Request

/-! ## `parseStatusLine` -/

section Status

variable {σ : Type} (simd : Simd) (h : Handler σ) (buffer : Slice)

theorem notify_absent {e : Event Slice} (he : h.has e.member = false) : h.notify e = pure ⟨⟩ := by
  funext s
  simp only [Handler.notify, he, Bool.false_eq_true, ↓reduceIte]
  rfl

/-- `skipLeading` stops at the first byte that is not a space, or at `i`. -/
theorem skipLeading_eq {i : Nat} {c : Byte} {cs : List Byte} (hd : buffer.bytes.drop i = c :: cs)
    (fuel start : Nat) (hs : start ≤ i) (hf : i < start + fuel) :
    skipLeading buffer i fuel start =
      .ok (start + ((buffer.sub start i).bytes.takeWhile (· == SP)).length) := by
  induction fuel generalizing start with
  | zero => omega
  | succ fuel ih =>
    have hlt := Slice.lt_of_drop hd
    rw [skipLeading]
    by_cases he : start = i
    · subst he
      rw [Slice.get_ok hd, Slice.sub_self]
      simp
    · obtain ⟨b, hb⟩ := get_of_lt buffer (show start < buffer.length by omega)
      have hdrop : buffer.bytes.drop start = b :: buffer.bytes.drop (start + 1) := by
        have hstart : start < buffer.bytes.length := Nat.lt_of_le_of_lt hs hlt
        rw [List.drop_eq_getElem_cons hstart]
        congr 1
        have := getElem?_of_get hb
        rw [List.getElem?_eq_getElem hstart] at this
        exact Option.some.inj this
      have hsub : (buffer.sub start i).bytes = b :: (buffer.sub (start + 1) i).bytes := by
        simp only [Slice.sub, hdrop]
        rw [show i - start = (i - (start + 1)) + 1 by omega, List.take_succ_cons]
      rw [hb, ok_bind, hsub]
      by_cases hsp : b = SP
      · subst hsp
        rw [if_pos ⟨rfl, by omega⟩, ih (start + 1) (by omega) (by omega)]
        simp only [List.takeWhile_cons, beq_self_eq_true, ↓reduceIte, List.length_cons]
        congr 1
        omega
      · rw [if_neg (fun hh => hsp hh.1)]
        simp [hsp]

/-- `stripLeading` cuts the slice where `skipLeading` stops. -/
theorem stripLeading_sub (start i : Nat) :
    (buffer.sub start i).stripLeading (· == SP) =
      buffer.sub (start + ((buffer.sub start i).bytes.takeWhile (· == SP)).length) i := by
  have hle : ((buffer.sub start i).bytes.takeWhile (· == SP)).length ≤ i - start := by
    apply Nat.le_trans (List.takeWhile_sublist _).length_le
    simp only [Slice.sub, List.length_take]
    exact Nat.min_le_left _ _
  generalize hn : ((buffer.sub start i).bytes.takeWhile (· == SP)).length = n at hle
  have hdw : (buffer.sub start i).bytes.dropWhile (· == SP) = (buffer.sub start i).bytes.drop n := by
    conv => rhs; rw [← List.takeWhile_append_dropWhile (p := (· == SP)) (l := (buffer.sub start i).bytes), ← hn]
    rw [List.drop_left]
  simp only [Slice.stripLeading, hn, hdw]
  simp only [Slice.sub, Slice.mk.injEq]
  refine ⟨by omega, ?_⟩
  rw [List.drop_take, List.drop_drop, show i - start - n = i - (start + n) by omega]

theorem notifyStatusMsg_eq {start i : Nat} {c : Byte} {cs : List Byte} (hs : start ≤ i)
    (hd : buffer.bytes.drop i = c :: cs) :
    notifyStatusMsg h buffer start i = notifyAll h (statusMsgEvents (buffer.sub start i)) := by
  have hlt := Slice.lt_of_drop hd
  have hlen : ∀ k, k ≤ i → ((buffer.sub k i).bytes = [] ↔ k = i) := by
    intro k hk
    rw [← List.length_eq_zero_iff]
    simp only [Slice.sub, List.length_take, List.length_drop]
    simp only [Slice.length] at hlt
    omega
  have hle : start + ((buffer.sub start i).bytes.takeWhile (· == SP)).length ≤ i := by
    have h1 := (List.takeWhile_sublist (· == SP) (l := (buffer.sub start i).bytes)).length_le
    have h2 : (buffer.sub start i).bytes.length ≤ i - start := by
      simp only [Slice.sub, List.length_take]
      exact Nat.min_le_left _ _
    omega
  unfold notifyStatusMsg statusMsgEvents
  rw [stripLeading_sub buffer start i]
  by_cases hhas : h.has .onStatusMsg = true
  · rw [if_pos hhas]
    by_cases hsi : start < i
    · rw [if_pos hsi, skipLeading_eq buffer hd _ _ hs (by omega), lift_ok_bind]
      generalize start + ((buffer.sub start i).bytes.takeWhile (· == SP)).length = k at hle
      by_cases hk : k < i
      · rw [if_pos hk, if_neg (mt (hlen k hle).1 (by omega)), Slice.slice_ok hle (Nat.le_of_lt hlt), lift_ok_bind]
        simp only [notifyAll, bind_pure_unit]
      · rw [if_neg hk, if_pos ((hlen k hle).2 (by omega))]
        rfl
    · obtain rfl : start = i := by omega
      rw [if_neg hsi, Slice.sub_self, if_pos (by simp)]
      rfl
  · have hno : h.has .onStatusMsg = false := by simpa using hhas
    rw [if_neg hhas]
    split
    · rfl
    · rw [notifyAll, notify_absent h (e := .onStatusMsg _) hno]
      rfl

theorem statusMessage_eq {i : Nat} (hi : i ≤ buffer.length) :
    statusMessage simd h buffer i =
      realize h buffer (run statusStep (buffer.ptr + i) (.text ⟨buffer.ptr + i, []⟩) (buffer.bytes.drop i)) := by
  unfold statusMessage
  rw [← Slice.sub_self]
  refine token_phase statusStep buffer simd textArgs StatusState.text (realize h buffer) _ i
    (fun _ => rfl) ?_ ?_ ?_ (Nat.le_refl i) hi
  · intro p acc c hc
    rw [textArgs_charMap] at hc
    simp only [statusStep, stepText, hc, ↓reduceIte]
  · intro p acc c cs hc hn
    rw [textArgs_charMap] at hc
    rw [mem_next_EOL _ rfl] at hn
    have hstep : statusStep p (.text acc) c = ([], .halt (.error .token)) := by
      simp only [statusStep, stepText, hc, Bool.false_eq_true, ↓reduceIte,
        if_neg fun h => hn (Or.inl h), if_neg fun h => hn (Or.inr h)]
    rw [run_halt hstep]
    rfl
  · intro j c cs hj hn hd
    rw [notifyStatusMsg_eq h buffer hj hd]
    exact newline_phase h (fun _ => rfl) (fun _ => rfl) (fun _ _ => rfl) ((mem_next_EOL _ rfl).1 hn) hd

theorem isDigit_iff {c : Byte} : isDigit c = true ↔ ¬ (c < 0x30 ∨ 0x39 < c) := by
  simp only [isDigit, Bool.and_eq_true, decide_eq_true_eq, not_or, UInt8.not_lt]

/-- The digit loop reads the three bytes as `codeValue` does. -/
theorem parseCode_eq {i : Nat} {a b c : Byte} {r : List Byte} (hd : buffer.bytes.drop i = a :: b :: c :: r) :
    parseCode buffer i i [(0, 100), (1, 10), (2, 1)] 0 =
      match codeValue [a, b, c] with
      | some code => .ok code
      | none => .error (.ret (err .status)) := by
  have h1 := Slice.drop_succ hd
  have h2 := Slice.drop_succ h1
  simp only [parseCode, Nat.add_zero, Slice.get_ok hd, Slice.get_ok h1, Slice.get_ok h2, ok_bind, codeValue,
    Bool.and_eq_true, isDigit_iff]
  by_cases ha : a < 0x30 ∨ 0x39 < a
  · simp only [ha, ↓reduceIte, not_true_eq_false, false_and]
  · by_cases hb : b < 0x30 ∨ 0x39 < b
    · simp only [ha, hb, ↓reduceIte, not_true_eq_false, and_false, false_and]
    · by_cases hc : c < 0x30 ∨ 0x39 < c
      · simp only [ha, hb, hc, ↓reduceIte, not_true_eq_false, and_false]
      · simp only [ha, hb, hc, ↓reduceIte, not_false_eq_true, and_self, digit, Except.ok.injEq]
        omega

theorem statusCode_eq {i : Nat} (hi : i ≤ buffer.length) :
    statusCode simd h buffer i =
      realize h buffer (run statusStep (buffer.ptr + i) (.code ⟨buffer.ptr + i, []⟩) (buffer.bytes.drop i)) := by
  have hlen := Slice.length_of_drop hi rfl
  unfold statusCode
  match hd : buffer.bytes.drop i with
  | [] => rw [hd] at hlen; rw [if_pos (by simp at hlen; omega)]; rfl
  | [_] => rw [hd] at hlen; rw [if_pos (by simp at hlen; omega)]; rfl
  | [_, _] => rw [hd] at hlen; rw [if_pos (by simp at hlen; omega)]; rfl
  | [_, _, _] => rw [hd] at hlen; rw [if_pos (by simp at hlen; omega)]; rfl
  | a :: b :: c :: d :: r =>
    rw [hd] at hlen
    simp only [List.length_cons] at hlen
    have h3 : buffer.bytes.drop (i + 3) = d :: r := by rw [← List.drop_drop, hd]; rfl
    have hrun : run statusStep (buffer.ptr + i) (.code ⟨buffer.ptr + i, []⟩) (a :: b :: c :: d :: r) =
        run statusStep (buffer.ptr + (i + 3)) (.code ⟨buffer.ptr + i, [a, b, c]⟩) (d :: r) := rfl
    rw [if_neg (by omega), parseCode_eq buffer hd, hrun]
    cases hv : codeValue [a, b, c] with
    | none =>
      have hstep : statusStep (buffer.ptr + (i + 3)) (.code ⟨buffer.ptr + i, [a, b, c]⟩) d =
          ([], .halt (.error .status)) := by
        simp only [statusStep, stepCode, hv]
        rfl
      rw [run_halt hstep]
      rfl
    | some code =>
      simp only [lift_ok_bind]
      rw [if_neg (by omega), Slice.get_ok h3, lift_ok_bind]
      by_cases hg : d ≠ SP ∧ d ≠ CR ∧ d ≠ LF
      · have hstep : statusStep (buffer.ptr + (i + 3)) (.code ⟨buffer.ptr + i, [a, b, c]⟩) d =
            ([.onStatus code], .halt (.error .status)) := by
          simp only [statusStep, stepCode, hv, if_pos hg]
          rfl
        rw [if_pos hg, run_halt hstep]
        simp only [realize, notifyAll, bind_assoc, pure_bind]
        rfl
      · have hstep : run statusStep (buffer.ptr + (i + 3)) (.code ⟨buffer.ptr + i, [a, b, c]⟩) (d :: r) =
            prepend [.onStatus code]
              (run statusStep (buffer.ptr + (i + 3)) (.text ⟨buffer.ptr + (i + 3), []⟩) (d :: r)) := by
          have hcode : statusStep (buffer.ptr + (i + 3)) (.code ⟨buffer.ptr + i, [a, b, c]⟩) d =
              (.onStatus code :: (stepText ⟨buffer.ptr + (i + 3), []⟩ d).1,
                (stepText ⟨buffer.ptr + (i + 3), []⟩ d).2) := by
            simp only [statusStep, stepCode, hv, if_neg hg]
            rfl
          simp only [run, hcode]
          have htext (p : Nat) (acc : Slice) : statusStep p (.text acc) d = stepText acc d := rfl
          rw [htext]
          generalize stepText ⟨buffer.ptr + (i + 3), []⟩ d = x
          obtain ⟨o, n⟩ := x
          cases n <;> rfl
        rw [if_neg hg, hstep, realize_cons, statusMessage_eq simd h buffer (by omega), h3]

/-- **`parseStatusLine`** reads its buffer as `statusStep` does. -/
theorem parseStatusLine_eq :
    parseStatusLine simd h buffer =
      realize h buffer (run statusStep buffer.ptr (.version ⟨buffer.ptr, []⟩) buffer.bytes) := by
  unfold parseStatusLine
  refine (token_phase statusStep buffer simd statusVersionArgs StatusState.version (realize h buffer) _ 0
    (fun _ => rfl) ?_ ?_ ?_ (Nat.le_refl 0) (Nat.zero_le _)).trans (by simp)
  · intro p acc c hc
    rw [statusVersionArgs_charMap] at hc
    simp only [statusStep, stepStatusVersion, hc, ↓reduceIte]
  · intro p acc c cs hc hn
    rw [statusVersionArgs_charMap] at hc
    rw [mem_next_SP _ rfl] at hn
    have hstep : statusStep p (.version acc) c = ([], .halt (.error .token)) := by
      simp only [statusStep, stepStatusVersion, hc, Bool.false_eq_true, ↓reduceIte, hn]
    rw [run_halt hstep]
    rfl
  · intro j c cs _ hn hd
    obtain rfl := (mem_next_SP _ rfl).1 hn
    have hlt := Slice.lt_of_drop hd
    by_cases hj : j = 0
    · have hstep : statusStep (buffer.ptr + j) (.version (buffer.sub 0 j)) SP = ([], .halt (.error .noVersion)) := by
        simp only [statusStep, stepStatusVersion, if_pos ((sub_zero_nil buffer (Nat.le_of_lt hlt)).2 hj)]
        rfl
      rw [if_pos hj, run_halt hstep]
      rfl
    · have hstep : statusStep (buffer.ptr + j) (.version (buffer.sub 0 j)) SP =
          ([.onVersion (buffer.sub 0 j)], .more .versionSpaces) := by
        simp only [statusStep, stepStatusVersion, if_neg (mt (sub_zero_nil buffer (Nat.le_of_lt hlt)).1 hj)]
        rfl
      rw [if_neg hj, Slice.slice_ok (Nat.zero_le j) (Nat.le_of_lt hlt), lift_ok_bind, run_more hstep, realize_cons,
        ← Slice.drop_succ hd]
      congr 1
      funext _
      refine skipSpaces_phase statusStep buffer .noStatus .versionSpaces (realize h buffer) _ rfl (fun _ => rfl)
        ?_ ?_ hlt
      · intro p d ds hd'
        have hnext : statusStep p .versionSpaces d = ([], .halt (.error .noStatus)) := by
          simp only [statusStep, if_pos hd']
        rw [run_halt hnext]
        rfl
      · intro k d ds h1 h2 h3 hk
        have hsame : statusStep (buffer.ptr + k) .versionSpaces d =
            statusStep (buffer.ptr + k) (.code ⟨buffer.ptr + k, []⟩) d := by
          simp only [statusStep, h1, h2, h3, or_self, ↓reduceIte]
        rw [statusCode_eq simd h buffer (Nat.le_of_lt (Slice.lt_of_drop hk)), hk, run_cons_congr hsame]

end Status

end Httparsed
