import Httparsed.PicoFinal
import Httparsed.PicoAgree
import Httparsed.Accept

/-!
# Reading a message piece by piece with picohttpparser

| here | there |
| --- | --- |
| `readMore` | a caller that reads on while the answer is `-2`, and gives the length it had before as `last_len` |

The check against `last_len` (picohttpparser.c:197) answers `-2` to all that has no blank line from shortly before
`last_len` on. It never holds up a message: reading piece by piece accepts what one call on all the bytes accepts
(`phr_read`). A header section alone is an exception, since the one without headers is a blank line that the
check does not count.
-/

namespace Httparsed

open Grammar

/-! ## Clean texts -/

theorem Clean.drop {w : List Byte} (h : Clean w) (k : Nat) : Clean (w.drop k) := by
  intro pre c post hsplit hc
  refine h (w.take k ++ pre) c post ?_ hc
  rw [List.append_assoc, ← hsplit, List.take_append_drop]

theorem Clean.nil : Clean [] := Clean.of_all fun _ hc => absurd hc List.not_mem_nil

/-- A clean text is a sequence of line ends and of bytes that are none. -/
theorem Clean.induction {motive : (w : List Byte) → Clean w → Prop} (nil : motive [] Clean.nil)
    (eol : ∀ (e : Eol) (w : List Byte) (h : Clean w), motive w h → motive (e.bytes ++ w) ((Clean.eol e).append h))
    (plain : ∀ (c : Byte) (w : List Byte) (h : Clean w) (hc : Clean (c :: w)), c ≠ CR → c ≠ LF → motive w h →
      motive (c :: w) hc) :
    ∀ (w : List Byte) (h : Clean w), motive w h := by
  intro w
  induction w using List.twoStepInduction with
  | nil => exact fun _ => nil
  | singleton c =>
    intro h
    by_cases hLF : c = LF
    · subst hLF
      exact eol .lf [] Clean.nil nil
    · refine plain c [] Clean.nil h ?_ hLF nil
      rintro rfl
      rcases h [] CR [] rfl (by decide) with hc | hc | hc
      · cases hc
      · cases hc
      · cases hc.2
  | cons_cons c d w ih ih' =>
    intro h
    by_cases hLF : c = LF
    · subst hLF
      exact eol .lf (d :: w) (h.drop 1) (ih' d _)
    by_cases hCR : c = CR
    · subst hCR
      rcases h [] CR (d :: w) rfl (by decide) with hc | hc | hc
      · cases hc
      · cases hc
      · obtain rfl := Option.some.inj hc.2
        exact eol .crlf w (h.drop 2) (ih _)
    · exact plain c (d :: w) (h.drop 1) h hCR hLF (ih' d _)

namespace Pico

/-- Read on, piece after piece, until the answer is not `-2`. -/
def readMore {α : Type} (call : List Byte → Nat → Except Fault (Int × Option α)) :
    List Byte → List (List Byte) → Except Fault (Int × Option α)
  | _, [] => .ok (-2, none)
  | got, piece :: pieces =>
    match call (got ++ piece) got.length with
    | .error f => .error f
    | .ok (ret, out) => if ret = -2 then readMore call (got ++ piece) pieces else .ok (ret, out)

section

variable {α : Type} {call : List Byte → Nat → Except Fault (Int × Option α)} {got piece : List Byte} {ret : Int}
  {out : Option α}

theorem readMore_done (h : call (got ++ piece) got.length = .ok (ret, out)) (hret : ret ≠ -2)
    (pieces : List (List Byte)) : readMore call got (piece :: pieces) = .ok (ret, out) := by
  simp only [readMore, h, if_neg hret]

theorem readMore_more (h : call (got ++ piece) got.length = .ok (-2, out)) (pieces : List (List Byte)) :
    readMore call got (piece :: pieces) = readMore call (got ++ piece) pieces := by
  simp only [readMore, h, if_true]

end

/-! ## What the check looks for -/

/-- A text that ends in a line end and an empty line, with no line broken otherwise. -/
def Ends (w : List Byte) : Prop :=
  ∃ (front : List Byte) (e₁ e₂ : Eol), w = front ++ (e₁.bytes ++ e₂.bytes) ∧ Clean front

section

variable {p k : Nat}

theorem completeLoop_eol (e : Eol) (rest : List Byte) :
    completeLoop k p (e.bytes ++ rest) =
      if k + 1 = 2 then .ok ⟨p + e.bytes.length, rest⟩ else completeLoop (k + 1) (p + e.bytes.length) rest := by
  cases e with
  | crlf => rfl
  | lf =>
    conv_lhs => unfold completeLoop
    rfl

theorem completeLoop_plain {c : Byte} (hCR : c ≠ CR) (hLF : c ≠ LF) (rest : List Byte) :
    completeLoop k p (c :: rest) = completeLoop 0 (p + 1) rest := by
  conv_lhs => unfold completeLoop
  rw [if_neg hCR, if_neg hLF]

/-- The loop finds the empty line, or one before it. -/
theorem completeLoop_ends {front : List Byte} (h : Clean front) (e₁ e₂ : Eol) (rest : List Byte) (hk : k < 2) :
    ∃ s, completeLoop k p (front ++ (e₁.bytes ++ (e₂.bytes ++ rest))) = .ok s := by
  induction front, h using Clean.induction generalizing k p with
  | nil =>
    rw [List.nil_append, completeLoop_eol]
    split_ifs with htwo
    · exact ⟨_, rfl⟩
    · have hone : k + 1 + 1 = 2 := by omega
      rw [completeLoop_eol, if_pos hone]
      exact ⟨_, rfl⟩
  | eol e w _ ih =>
    rw [List.append_assoc, completeLoop_eol]
    split_ifs with htwo
    · exact ⟨_, rfl⟩
    · exact ih (by omega)
  | plain c w _ _ hCR hLF ih =>
    rw [List.cons_append, completeLoop_plain hCR hLF]
    exact ih (by omega)

end

/-- The check lets a whole message through when it was not whole before. -/
theorem passes_of_ends {w b : List Byte} (hw : Ends w) (hfront : w <+: b) {last_len : Nat}
    (hlast : last_len < w.length) : Passes b last_len := by
  intro _
  obtain ⟨front, e₁, e₂, rfl, hclean⟩ := hw
  obtain ⟨rest, rfl⟩ := hfront
  have hfour : (e₁.bytes ++ e₂.bytes).length ≤ 4 := by cases e₁ <;> cases e₂ <;> decide
  rw [List.length_append] at hlast
  unfold isComplete
  split_ifs with h
  · simp only [ok_bind, List.append_assoc]
    exact completeLoop_ends hclean e₁ e₂ rest (by omega)
  · have hle : last_len - 3 ≤ front.length := by omega
    have hslice : last_len - 3 ≤ (Slice.mk 0 (front ++ (e₁.bytes ++ e₂.bytes) ++ rest)).length := by
      simp only [Slice.length, List.length_append]
      omega
    rw [Slice.sliceFrom_ok hslice, ok_bind]
    simp only [List.append_assoc, List.drop_append_of_le_length hle]
    exact completeLoop_ends (hclean.drop _) e₁ e₂ rest (by omega)

/-! ## Messages end so -/

theorem isToken_control : ∀ c : Byte, isToken c = true → isControl c = true → c = HT :=
  forall_byte (by decide +kernel)

theorem isDigit_control : ∀ c : Byte, isDigit c = true → isControl c = true → c = HT :=
  forall_byte (by decide +kernel)

theorem Content.clean (x : Content) : Clean x.bytes := by
  cases x with
  | named name raw =>
    have hcolon : Clean [COLON] := by
      refine Clean.of_all fun c hc hctl => ?_
      rw [List.mem_singleton.1 hc] at hctl
      cases hctl
    have h := ((Clean.word isToken_control name).append hcolon).append (Clean.text textByte_control raw)
    rwa [List.append_assoc] at h
  | continued raw start => exact Clean.word textByte_control raw

theorem linesBytes_clean (ls : List Line) : Clean (linesBytes ls) := by
  induction ls with
  | nil => exact Clean.nil
  | cons l ls ih => exact ((Content.clean l.content).append (Clean.eol l.eol)).append ih

theorem Version.clean (v : Version) : Clean v.bytes := by
  obtain ⟨w, hw⟩ := word_of_version v
  rw [← hw]
  exact Clean.word versionByte_control w

theorem Code.clean (x : Code) : Clean x.bytes := by
  refine Clean.of_all fun c hc => ?_
  have hdigit : isDigit c = true := by
    simp only [Code.bytes, List.mem_cons, List.not_mem_nil, or_false] at hc
    rcases hc with rfl | rfl | rfl
    · exact x.digit₁
    · exact x.digit₂
    · exact x.digit₃
  exact isDigit_control c hdigit

theorem leadBytes_clean (lead : Option Eol) : Clean (leadBytes lead) := by
  cases lead with
  | none => exact Clean.nil
  | some e => exact Clean.eol e

theorem lines_end {start : List Byte} (hstart : Clean start) {ls : List Line} (h : ls ≠ []) (e : Eol) :
    Ends (start ++ (linesBytes ls ++ e.bytes)) := by
  obtain hnil | ⟨ls, l, rfl⟩ := List.eq_nil_or_concat ls
  · exact absurd hnil h
  · refine ⟨start ++ (linesBytes ls ++ l.content.bytes), l.eol, e, ?_, ?_⟩
    · simp [linesBytes, Line.bytes]
    · exact hstart.append ((linesBytes_clean ls).append (Content.clean l.content))

theorem section_end {start : List Byte} (hstart : Clean start) (e : Eol) (s : Section) :
    Ends (start ++ e.bytes ++ s.bytes) := by
  by_cases h : s.lines = []
  · refine ⟨start, e, s.eol, ?_, hstart⟩
    rw [Section.bytes, h, List.append_assoc]
    rfl
  · exact lines_end (hstart.append (Clean.eol e)) h s.eol

theorem Request.ends (q : Request) : Ends q.bytes :=
  section_end ((((((leadBytes_clean q.lead).append (Clean.word isToken_control q.method)).append
    (Clean.word space_control q.gap₁)).append (Clean.word uriByte_control q.path)).append
    (Clean.word space_control q.gap₂)).append q.version.clean) q.eol q.headers

theorem Response.ends (q : Response) : Ends q.bytes :=
  section_end ((((q.version.clean).append (Clean.word space_control q.gap)).append (Code.clean q.code)).append
    (Clean.text textByte_control q.text)) q.eol q.headers

/-! ## One call of a run -/

/-- What a parser is in the following: its answers are final, and what it reads it reads in front of anything. -/
structure Parser {α : Type} (parse : Slice → Except Stop (α × Slice)) : Prop where
  quiet : ∀ b, Quiet (parse ⟨0, b⟩)
  settled : ∀ y s, Settled (Prod.map id (more y)) (parse s) (parse (more y s))
  reads : ∀ {b out r}, parse ⟨0, b⟩ = .ok (out, r) →
    0 < r.ptr ∧ r.ptr ≤ b.length ∧ parse ⟨0, b.take r.ptr⟩ = .ok (out, ⟨r.ptr, []⟩)

section

variable {α : Type} {parse : Slice → Except Stop (α × Slice)} {whole b : List Byte} {out : α} {r : Slice}
  {last_len : Nat}

/-- A message is read in whatever part of the bytes it is in. -/
theorem Parser.part (h : Parser parse) (hread : parse ⟨0, whole⟩ = .ok (out, r)) (hb : b <+: whole)
    (hlong : r.ptr ≤ b.length) : ∃ s, parse ⟨0, b⟩ = .ok (out, s) ∧ s.ptr = r.ptr := by
  obtain ⟨-, -, htake⟩ := h.reads hread
  have hsame : whole.take r.ptr = b.take r.ptr := by
    obtain ⟨z, rfl⟩ := hb
    exact List.take_append_of_le_length hlong
  rw [hsame] at htake
  refine ⟨more (b.drop r.ptr) ⟨r.ptr, []⟩, ?_, rfl⟩
  conv_lhs => rw [← List.take_append_drop r.ptr b]
  exact (h.settled (b.drop r.ptr) _).ok htake

/-- As long as the message is not whole, it is incomplete. -/
theorem Parser.part_short (h : Parser parse) (hread : parse ⟨0, whole⟩ = .ok (out, r)) (hb : b <+: whole)
    (hshort : b.length < r.ptr) : parse ⟨0, b⟩ = .error (.ret (-2)) := by
  obtain ⟨z, rfl⟩ := hb
  cases hp : parse ⟨0, b⟩ with
  | ok x =>
    have hptr := (h.reads hp).2.1
    have hmore : parse ⟨0, b ++ z⟩ = .ok (Prod.map id (more z) x) := (h.settled z _).ok hp
    rw [hread] at hmore
    have hr : r = more z x.2 := (Prod.mk.inj (Except.ok.inj hmore)).2
    rw [hr] at hshort
    exact absurd hptr (Nat.not_le.2 hshort)
  | error e =>
    rcases h.quiet b e hp with rfl | rfl
    · have hmore : parse ⟨0, b ++ z⟩ = .error (.ret (-1)) := (h.settled z _).ret (by decide) hp
      rw [hread] at hmore
      cases hmore
    · rfl

/-- As long as the message is not whole, the answer is `-2`. -/
theorem Parser.call_short (h : Parser parse) (hread : parse ⟨0, whole⟩ = .ok (out, r)) (hends : Ends (whole.take r.ptr))
    (hb : b <+: whole) (hshort : b.length < r.ptr) (hlast : last_len ≤ b.length) :
    phrParse parse b last_len = .ok (-2, none) := by
  obtain ⟨-, hle, -⟩ := h.reads hread
  have hlen : (whole.take r.ptr).length = r.ptr := List.length_take_of_le hle
  have hpass : Passes whole last_len := passes_of_ends hends (List.take_prefix _ _) (by omega)
  have hparse := h.part_short hread hb hshort
  obtain ⟨z, rfl⟩ := hb
  have hcheck : Settled (more z) (isComplete ⟨0, b⟩ last_len) (isComplete ⟨0, b ++ z⟩ last_len) :=
    isComplete_settled z last_len ⟨0, b⟩
  by_cases h0 : last_len = 0
  · simp only [phrParse, h0, hparse]
    rfl
  · simp only [phrParse, if_pos h0]
    cases hc : isComplete ⟨0, b⟩ last_len with
    | ok s =>
      simp only [ok_bind, hparse]
    | error e =>
      rcases isComplete_quiet (by omega) e hc with rfl | rfl
      · obtain ⟨s, hs⟩ := hpass h0
        rw [hcheck.ret (by decide) hc] at hs
        cases hs
      · rfl

/-- When it is whole, it is accepted. -/
theorem Parser.call_long (h : Parser parse) (hwhole : whole.length < 2 ^ 31)
    (hread : parse ⟨0, whole⟩ = .ok (out, r)) (hends : Ends (whole.take r.ptr)) (hb : b <+: whole)
    (hlong : r.ptr ≤ b.length) (hlast : last_len < r.ptr) : phrParse parse b last_len = .ok (r.ptr, some out) := by
  obtain ⟨s, hs, hptr⟩ := h.part hread hb hlong
  have hlen : (whole.take r.ptr).length = r.ptr := List.length_take_of_le (hlong.trans hb.length_le)
  have hfront : whole.take r.ptr <+: b := by
    obtain ⟨z, rfl⟩ := hb
    rw [List.take_append_of_le_length hlong]
    exact List.take_prefix _ _
  rw [phrParse_passes (passes_of_ends hends hfront (by omega))]
  refine (phrParse_ok_iff (hb.length_le.trans_lt hwhole) (h.quiet b) fun out r hr => (h.reads hr).2.1).2 ?_
  exact ⟨s, hs, by rw [hptr]⟩

/-! ## Runs -/

variable {got : List Byte} {pieces : List (List Byte)}

theorem Parser.run_accepts (h : Parser parse) (hlen : (got ++ pieces.flatten).length < 2 ^ 31)
    (hread : parse ⟨0, got ++ pieces.flatten⟩ = .ok (out, r)) (hends : Ends ((got ++ pieces.flatten).take r.ptr))
    (hshort : got.length < r.ptr) : readMore (phrParse parse) got pieces = .ok (r.ptr, some out) := by
  induction pieces generalizing got with
  | nil =>
    have hle := (h.reads hread).2.1
    rw [List.flatten_nil, List.append_nil] at hle
    omega
  | cons piece pieces ih =>
    rw [List.flatten_cons, ← List.append_assoc] at hlen hread hends
    have hfront : got ++ piece <+: got ++ piece ++ pieces.flatten := List.prefix_append _ _
    by_cases hlong : r.ptr ≤ (got ++ piece).length
    · exact readMore_done (h.call_long hlen hread hends hfront hlong hshort) (by omega) pieces
    · have hle : got.length ≤ (got ++ piece).length := by simp
      rw [readMore_more (h.call_short hread hends hfront (Nat.not_le.1 hlong) hle)]
      exact ih hlen hread hends (Nat.not_le.1 hlong)

/-- The three kinds of answers. -/
theorem Parser.call_answers (h : Parser parse) (hb : b.length < 2 ^ 31) (hlast : last_len ≤ b.length + 3) :
    (∃ (n : Nat) (out : α), phrParse parse b last_len = .ok (n, some out) ∧ phrParse parse b 0 = .ok (n, some out)) ∨
      phrParse parse b last_len = .ok (-1, none) ∨ phrParse parse b last_len = .ok (-2, none) := by
  by_cases hpass : Passes b last_len
  · rw [phrParse_passes hpass]
    cases hparse : parse ⟨0, b⟩ with
    | ok x =>
      have hphr := (phrParse_ok_iff hb (h.quiet b) fun out r hr => (h.reads hr).2.1).2 ⟨x.2, hparse, rfl⟩
      exact Or.inl ⟨x.2.ptr, x.1, hphr, hphr⟩
    | error e =>
      right
      simp only [phrParse, hparse, ne_eq, not_true_eq_false, if_false]
      rcases h.quiet b e hparse with rfl | rfl
      · exact Or.inl rfl
      · exact Or.inr rfl
  · exact Or.inr (phrParse_stops hlast hpass)

/-- A run comes to an answer, and what it accepts one call on all the bytes accepts. -/
theorem Parser.run_answers (h : Parser parse) (hlen : (got ++ pieces.flatten).length < 2 ^ 31) :
    (∃ n out, readMore (phrParse parse) got pieces = .ok (n, some out) ∧
        phrParse parse (got ++ pieces.flatten) 0 = .ok (n, some out)) ∨
      readMore (phrParse parse) got pieces = .ok (-1, none) ∨
      readMore (phrParse parse) got pieces = .ok (-2, none) := by
  induction pieces generalizing got with
  | nil => exact Or.inr (Or.inr rfl)
  | cons piece pieces ih =>
    rw [List.flatten_cons, ← List.append_assoc] at hlen ⊢
    have hfront : (got ++ piece).length ≤ (got ++ piece ++ pieces.flatten).length :=
      (List.prefix_append _ _).length_le
    have hlast : got.length ≤ (got ++ piece).length + 3 := by
      rw [List.length_append]
      omega
    rcases h.call_answers (hfront.trans_lt hlen) hlast with ⟨n, out, hcall, hplain⟩ | hcall | hcall
    · have hne : (n : Int) ≠ -2 := by omega
      exact Or.inl ⟨n, out, readMore_done hcall hne pieces, phrParse_settled (h.settled _) hplain hne⟩
    · exact Or.inr (Or.inl (readMore_done hcall (by decide) pieces))
    · rw [readMore_more hcall]
      exact ih hlen

theorem Parser.run_iff (h : Parser parse) (hlen : pieces.flatten.length < 2 ^ 31) {n : Int}
    (hends : ∀ r, parse ⟨0, pieces.flatten⟩ = .ok (out, r) → Ends (pieces.flatten.take r.ptr)) :
    readMore (phrParse parse) [] pieces = .ok (n, some out) ↔ phrParse parse pieces.flatten 0 = .ok (n, some out) := by
  constructor
  · intro hrun
    rcases h.run_answers (show ([] ++ pieces.flatten).length < 2 ^ 31 from hlen) with
      ⟨n', out', hrun', hplain⟩ | hrun' | hrun'
    · rw [hrun] at hrun'
      obtain ⟨rfl, hout⟩ := Prod.mk.inj (Except.ok.inj hrun')
      rwa [← hout] at hplain
    · rw [hrun] at hrun'
      cases hrun'
    · rw [hrun] at hrun'
      cases hrun'
  · intro hplain
    obtain ⟨r, hread, rfl⟩ :=
      (phrParse_ok_iff hlen (h.quiet _) fun out r hr => (h.reads hr).2.1).1 hplain
    exact h.run_accepts hlen hread (hends r hread) (h.reads hread).1

end

section

variable (simd : Simd) (max_headers : Nat)

theorem requestParser : Parser (parseRequest simd max_headers) where
  quiet := parseRequest_quiet simd max_headers
  settled y s := parseRequest_settled y simd max_headers s
  reads hread := by
    obtain ⟨q, tl, hroom, rfl, rfl, rfl⟩ := (parseRequest_ok_iff simd).1 hread
    refine ⟨q.length_pos, (List.prefix_append _ _).length_le, ?_⟩
    exact (parseRequest_ok_iff simd).2 ⟨q, [], hroom, by simp, rfl, rfl⟩

theorem responseParser : Parser (parseResponse simd max_headers) where
  quiet := parseResponse_quiet simd max_headers
  settled y s := parseResponse_settled y simd max_headers s
  reads hread := by
    obtain ⟨q, tl, hroom, rfl, rfl, rfl⟩ := (parseResponse_ok_iff simd).1 hread
    refine ⟨q.length_pos, (List.prefix_append _ _).length_le, ?_⟩
    exact (parseResponse_ok_iff simd).2 ⟨q, [], hroom, by simp, rfl, rfl⟩

theorem headersParser : Parser (parseHeaders simd max_headers (max_headers + 1) []) where
  quiet b := parseSection_quiet simd max_headers ⟨0, b⟩
  settled y s := parseHeaders_settled y simd max_headers (max_headers + 1) [] s
  reads hread := by
    obtain ⟨s, tl, hroom, rfl, rfl, rfl⟩ := (parseHeaders_section_iff simd).1 hread
    have hpos := section_pos s
    refine ⟨by simpa using hpos, by simp, ?_⟩
    exact (parseHeaders_section_iff simd).2 ⟨s, [], hroom, by simp, rfl, rfl⟩

/-- **Reading piece by piece loses no message**: a caller that passes the length it had before accepts what one
call on all the bytes accepts, with the same length and fields, whatever the pieces are. For `phr_parse_headers`
this holds of sections with a header in them. No run reads outside its buffer. -/
theorem phr_read {pieces : List (List Byte)} (hlen : pieces.flatten.length < 2 ^ 31) :
    (∀ n out, readMore (phrParseRequest simd max_headers) [] pieces = .ok (n, some out) ↔
      phrParseRequest simd max_headers pieces.flatten 0 = .ok (n, some out)) ∧
    (∀ n out, readMore (phrParseResponse simd max_headers) [] pieces = .ok (n, some out) ↔
      phrParseResponse simd max_headers pieces.flatten 0 = .ok (n, some out)) ∧
    (∀ n out, out ≠ [] → (readMore (phrParseHeaders simd max_headers) [] pieces = .ok (n, some out) ↔
      phrParseHeaders simd max_headers pieces.flatten 0 = .ok (n, some out))) ∧
    (∀ f, readMore (phrParseRequest simd max_headers) [] pieces ≠ .error f ∧
      readMore (phrParseResponse simd max_headers) [] pieces ≠ .error f ∧
      readMore (phrParseHeaders simd max_headers) [] pieces ≠ .error f) := by
  have hanswer : ∀ {α : Type} {parse : Slice → Except Stop (α × Slice)}, Parser parse → ∀ f,
      readMore (phrParse parse) [] pieces ≠ .error f := by
    rintro α parse h f hf
    rcases h.run_answers (show ([] ++ pieces.flatten).length < 2 ^ 31 from hlen) with ⟨n, out, hrun, -⟩ | hrun | hrun
    all_goals
      rw [hf] at hrun
      cases hrun
  refine ⟨fun n out => ?_, fun n out => ?_, fun n out hne => ?_, fun f => ⟨?_, ?_, ?_⟩⟩
  · refine (requestParser simd max_headers).run_iff hlen fun r hread => ?_
    obtain ⟨q, tl, -, hsplit, -, rfl⟩ := (parseRequest_ok_iff simd).1 hread
    rw [hsplit, List.take_left]
    exact q.ends
  · refine (responseParser simd max_headers).run_iff hlen fun r hread => ?_
    obtain ⟨q, tl, -, hsplit, -, rfl⟩ := (parseResponse_ok_iff simd).1 hread
    rw [hsplit, List.take_left]
    exact q.ends
  · refine (headersParser simd max_headers).run_iff hlen fun r hread => ?_
    obtain ⟨s, tl, -, hsplit, rfl, rfl⟩ := (parseHeaders_section_iff simd).1 hread
    have hlines : s.lines ≠ [] := by
      intro hnil
      rw [hnil] at hne
      exact hne rfl
    have htake : pieces.flatten.take (0 + s.bytes.length) = [] ++ (linesBytes s.lines ++ s.eol.bytes) := by
      rw [hsplit, Nat.zero_add, List.take_left]
      rfl
    rw [htake]
    exact lines_end Clean.nil hlines s.eol
  · exact hanswer (requestParser simd max_headers) f
  · exact hanswer (responseParser simd max_headers) f
  · exact hanswer (headersParser simd max_headers) f

/-- A request that arrives with its last line end cut in two. -/
theorem phr_read_cut :
    readMore (phrParseRequest .unrolled 1) [] [ascii "GET / HTTP/1.1\r", ascii "\n\r", ascii "\n"] =
      .ok (18, some ⟨⟨0, ascii "GET"⟩, ⟨4, ascii "/"⟩, 1, []⟩) :=
  ((@phr_read .unrolled 1 [ascii "GET / HTTP/1.1\r", ascii "\n\r", ascii "\n"] (by decide)).1 _ _).2
    (by decide +kernel)

end

end Pico

end Httparsed
