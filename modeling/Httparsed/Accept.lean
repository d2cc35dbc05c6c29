import Httparsed.Observe

/-!
# The parser accepts exactly its grammar

`answer_iff_head`: a call on a fresh buffer answers `n` with callbacks `E` exactly when the first `n` bytes are
a head of the grammar whose callbacks are `E`. `parseRequest_accepts` and `parseResponse_accepts` say it of the
two entry points, with any handler that has every callback and rejects nothing.

A head is the only thing a buffer can begin with (`heads_same_length`), and the only control bytes in it are
HTs and whole line ends (`Head.clean`).
-/

namespace Httparsed

open Transducer Grammar

/-! ## Callbacks of a head -/

@[simp] theorem trim_member (e : Event Slice) : e.trim.member = e.member := by cases e <;> rfl

@[simp] theorem trim_isHeader (e : Event Slice) : e.trim.isHeader = e.isHeader := by cases e <;> rfl

theorem trim_of_not_header {e : Event Slice} (h : e.isHeader = false) : e.trim = e := by
  cases e with
  | onHeader name value => cases h
  | _ => rfl

theorem lineCalls_events (p : Nat) (ls : List Line) :
    (lineCalls p ls).map (fun x => x.2.trim) = linesEvents p ls := by
  induction ls generalizing p with
  | nil => rfl
  | cons l ls ih =>
    rw [lineCalls, List.map_cons, ih]
    rfl

theorem headCalls_events {l : StartLine} (g : StartGrammar l) (hd : Head g.toStartSyntax) :
    (headCalls g hd).map (fun x => x.2.trim) = hd.events := by
  have hstart : ∀ (o : List (Event Slice)) (m : Nat), (∀ e ∈ o, e.isHeader = false) →
      (o.map (Prod.mk m)).map (fun x => x.2.trim) = o := by
    intro o m hno
    rw [List.map_map]
    conv_rhs => rw [← List.map_id o]
    exact List.map_congr_left fun e he => trim_of_not_header (hno e he)
  rw [headCalls, List.map_append, hstart _ _ (g.notHeader _ _), lineCalls_events]
  rfl

/-! ## Acceptance -/

/-- The code of a run is positive only when it has read a head to its end. -/
theorem outcomeCode_pos {τ : Type} {out : Outcome τ Byte (Except (ParserError × Nat) Nat)} {n : Nat} (hn : 0 < n)
    (h : outcomeCode out = n) : ∃ rest, out = .halted (.ok n) rest := by
  rcases out with s | ⟨⟨e, m⟩ | k, rest⟩
  · have := err_neg .partialData
    simp only [outcomeCode] at h
    omega
  · have := err_neg e
    simp only [outcomeCode] at h
    omega
  · obtain rfl : k = n := Int.ofNat.inj h
    exact ⟨rest, rfl⟩

theorem head_pos {y : StartSyntax} (hd : Head y) : 0 < hd.bytes.length := by
  have : 0 < hd.eol.bytes.length := by cases hd.eol <;> decide
  rw [Head.bytes, List.length_append]
  omega

/-- The answer to a buffer that begins with a head. -/
theorem answer_head {l : StartLine} (g : StartGrammar l) (hd : Head g.toStartSyntax) (rest : List Byte) :
    (answer l (hd.bytes ++ rest) 0).code = hd.bytes.length ∧ (answer l (hd.bytes ++ rest) 0).lastPos = hd.bytes.length ∧
      (answer l (hd.bytes ++ rest) 0).events = hd.events := by
  have hread := read_complete hd rest
  refine ⟨?_, ?_, ?_⟩
  · simp only [answer, hread, outcomeCode]
  · simp only [answer, hread, stopMark]
  · simp only [Answer.events, answer, hread, List.map_map]
    exact headCalls_events g hd

/-- **Acceptance.** -/
theorem answer_iff_head {l : StartLine} (g : StartGrammar l) (b : List Byte) {n : Nat} (hn : 0 < n)
    (E : List (Event Slice)) :
    (answer l b 0).code = n ∧ (answer l b 0).events = E ↔
      ∃ hd : Head g.toStartSyntax, hd.bytes <+: b ∧ hd.bytes.length = n ∧ E = hd.events := by
  constructor
  · rintro ⟨hcode, rfl⟩
    obtain ⟨rest, hout⟩ := outcomeCode_pos hn hcode
    have hread : read l b 0 = ((read l b 0).1, .halted (.ok n) rest) := Prod.ext rfl hout
    obtain ⟨hd, hb, rfl, -⟩ := read_sound (g := g) hread
    exact ⟨hd, ⟨rest, hb.symm⟩, rfl, by rw [hb]; exact (answer_head g hd rest).2.2⟩
  · rintro ⟨hd, ⟨rest, rfl⟩, rfl, rfl⟩
    obtain ⟨h1, -, h2⟩ := answer_head g hd rest
    exact ⟨h1, h2⟩

/-- Two heads a buffer begins with end at the same byte. -/
theorem heads_same_length {l : StartLine} (g : StartGrammar l) {b : List Byte} {hd hd' : Head g.toStartSyntax}
    (h : hd.bytes <+: b) (h' : hd'.bytes <+: b) : hd.bytes.length = hd'.bytes.length := by
  have h1 := ((answer_iff_head g b (head_pos hd) hd.events).2 ⟨hd, h, rfl, rfl⟩).1
  have h2 := ((answer_iff_head g b (head_pos hd') hd'.events).2 ⟨hd', h', rfl, rfl⟩).1
  rw [h1] at h2
  exact_mod_cast h2

/-! ## Control bytes -/

/-- 0x00-0x1F and DEL -/
def isControl (c : Byte) : Bool := decide (c < 0x20) || c == 0x7F

/-- Every control byte is a HT, an LF, or a CR with an LF behind it. -/
def Clean (w : List Byte) : Prop :=
  ∀ pre c post, w = pre ++ c :: post → isControl c = true → c = HT ∨ c = LF ∨ (c = CR ∧ post.head? = some LF)

theorem Clean.append {a b : List Byte} (ha : Clean a) (hb : Clean b) : Clean (a ++ b) := by
  intro pre c post h hc
  rcases List.append_eq_append_iff.1 h with ⟨mid, rfl, hmid⟩ | ⟨mid, rfl, hmid⟩
  · exact hb mid c post hmid hc
  · cases mid with
    | nil =>
      rw [List.nil_append] at hmid
      exact hb [] c post hmid.symm hc
    | cons d mid =>
      obtain ⟨rfl, rfl⟩ := List.cons.inj hmid
      rcases ha pre c mid rfl hc with h1 | h1 | ⟨h1, h2⟩
      · exact Or.inl h1
      · exact Or.inr (Or.inl h1)
      · refine Or.inr (Or.inr ⟨h1, ?_⟩)
        cases mid with
        | nil => cases h2
        | cons e mid => exact h2

theorem Clean.of_all {w : List Byte} (hw : ∀ c ∈ w, isControl c = true → c = HT) : Clean w := by
  intro pre c post h hc
  exact Or.inl (hw c (by rw [h]; simp) hc)

theorem Clean.word {P : Byte → Bool} (hP : ∀ c, P c = true → isControl c = true → c = HT) (w : Word P) :
    Clean w.bytes :=
  Clean.of_all fun c hc => hP c (w.all c hc)

theorem Clean.text {P : Byte → Bool} (hP : ∀ c, P c = true → isControl c = true → c = HT) (w : Text P) :
    Clean w.bytes :=
  Clean.of_all fun c hc => hP c (w.all c hc)

theorem Clean.eol (eol : Eol) : Clean eol.bytes := by
  intro pre c post h hc
  cases eol with
  | crlf =>
    rcases pre with _ | ⟨d, _ | ⟨e, pre⟩⟩
    · obtain ⟨rfl, rfl⟩ := List.cons.inj h
      exact Or.inr (Or.inr ⟨rfl, rfl⟩)
    · obtain ⟨-, h⟩ := List.cons.inj h
      exact Or.inr (Or.inl (List.cons.inj h).1.symm)
    · simp [Eol.bytes] at h
  | lf =>
    rcases pre with _ | ⟨d, pre⟩
    · exact Or.inr (Or.inl (List.cons.inj h).1.symm)
    · simp [Eol.bytes] at h

theorem tokenByte_control : ∀ c : Byte, tokenByte c = true → isControl c = true → c = HT :=
  forall_byte (by decide +kernel)

theorem uriByte_control : ∀ c : Byte, uriByte c = true → isControl c = true → c = HT :=
  forall_byte (by decide +kernel)

theorem versionByte_control : ∀ c : Byte, versionByte c = true → isControl c = true → c = HT :=
  forall_byte (by decide +kernel)

theorem textByte_control : ∀ c : Byte, textByte c = true → isControl c = true → c = HT :=
  forall_byte (by decide +kernel)

theorem space_control (c : Byte) : (c == SP) = true → isControl c = true → c = HT := by
  intro h hc
  obtain rfl : c = SP := by simpa using h
  exact absurd hc (by decide)

theorem RequestLine.clean (l : RequestLine) : Clean l.bytes :=
  ((((((Clean.word tokenByte_control l.method).append (Clean.word space_control l.gap₁)).append
    (Clean.word uriByte_control l.uri)).append (Clean.word space_control l.gap₂)).append
    (Clean.word versionByte_control l.version)).append (Clean.eol l.eol))

theorem content_clean (x : Content) : Clean x.bytes := by
  cases x with
  | named n raw =>
    have hcolon : Clean [COLON] := Clean.of_all fun c hc hctl => by
      rw [List.mem_singleton.1 hc] at hctl
      exact absurd hctl (by decide)
    have h := ((Clean.word tokenByte_control n).append hcolon).append (Clean.text textByte_control raw)
    rwa [List.append_assoc] at h
  | continued raw h => exact Clean.word textByte_control raw

theorem lines_clean (ls : List Line) : Clean (linesBytes ls) := by
  induction ls with
  | nil => exact Clean.of_all fun c hc => absurd hc (List.not_mem_nil)
  | cons l ls ih => exact ((content_clean l.content).append (Clean.eol l.eol)).append ih

/-- A head has no control bytes but HTs and whole line ends. -/
theorem Head.clean {y : StartSyntax} (hy : ∀ ph, Clean (y.bytes ph)) (hd : Head y) : Clean hd.bytes := by
  have hlead : Clean (leadBytes hd.lead) := by
    cases hd.lead with
    | none => exact Clean.of_all fun c hc => absurd hc (List.not_mem_nil)
    | some eol => exact Clean.eol eol
  exact ((hlead.append (hy _)).append (lines_clean _)).append (Clean.eol _)

/-! ## The two entry points -/

variable {σ : Type}

/-- Acceptance, as any application sees it that rejects nothing. -/
theorem Entry.accepts (entry : Entry) (simd : Simd) {h : Handler σ} (hn : h.NeverRejects) {b : List Byte}
    (hb : b.length < 2 ^ 31) (s : σ) {n : Nat} (hpos : 0 < n) (E : List (Event Slice)) :
    ((entry.observe simd h b 0 s).code = .ok (n : Int) ∧ (entry.observe simd h b 0 s).calls = E) ↔
      ∃ hd : Head entry.grammar.toStartSyntax, hd.bytes <+: b ∧ hd.bytes.length = n ∧ E = h.hears hd.events := by
  rw [entry.observe_code simd hn hb (Nat.zero_le _) s, (entry.observe_accepting simd hn hb (Nat.zero_le _) s).2,
    Except.ok.injEq]
  constructor
  · rintro ⟨hcode, rfl⟩
    obtain ⟨hd, h1, h2, h3⟩ := (answer_iff_head entry.grammar b hpos _).1 ⟨hcode, rfl⟩
    exact ⟨hd, h1, h2, by rw [h3]⟩
  · rintro ⟨hd, h1, h2, rfl⟩
    obtain ⟨hcode, hevents⟩ := (answer_iff_head entry.grammar b hpos _).2 ⟨hd, h1, h2, rfl⟩
    exact ⟨hcode, by rw [hevents]⟩

/-- **`parseRequest` accepts exactly its grammar and reports exactly what was written.** At most one head
begins a buffer, and no head has a control byte but HTs and whole line ends. -/
theorem parseRequest_accepts (simd : Simd) {h : Handler σ} (hn : h.NeverRejects) {b : List Byte}
    (hb : b.length < 2 ^ 31) (s : σ) :
    (∀ (n : Nat) (E : List (Event Slice)), 0 < n →
      (((Entry.request.observe simd h b 0 s).code = .ok (n : Int) ∧ (Entry.request.observe simd h b 0 s).calls = E) ↔
        ∃ hd : Head requestSyntax, hd.bytes <+: b ∧ hd.bytes.length = n ∧ E = h.hears hd.events)) ∧
    (∀ hd hd' : Head requestSyntax, hd.bytes <+: b → hd'.bytes <+: b → hd.bytes.length = hd'.bytes.length) ∧
    (∀ hd : Head requestSyntax, Clean hd.bytes) := by
  refine ⟨?_, ?_, ?_⟩
  · intro n E hpos
    exact Entry.request.accepts simd hn hb s hpos E
  · intro hd hd' h1 h2
    exact heads_same_length requestGrammar h1 h2
  · exact Head.clean RequestLine.clean

/-- A request line alone, which is a head that the call reads to its end. -/
theorem parseRequest_accepts_get :
    ((Entry.request.observe .unrolled Handler.recorder (ascii "GET / HTTP/1.0\n\n") 0 ()).code = .ok 16 ∧
        (Entry.request.observe .unrolled Handler.recorder (ascii "GET / HTTP/1.0\n\n") 0 ()).calls =
          [.onMethod ⟨0, ascii "GET"⟩, .onUri ⟨4, ascii "/"⟩, .onVersion ⟨6, ascii "HTTP/1.0"⟩]) ∧
      ∃ hd : Head requestSyntax, hd.bytes <+: ascii "GET / HTTP/1.0\n\n" ∧ hd.bytes.length = 16 ∧
        [.onMethod ⟨0, ascii "GET"⟩, .onUri ⟨4, ascii "/"⟩, .onVersion ⟨6, ascii "HTTP/1.0"⟩] =
          Handler.recorder.hears hd.events := by
  have hiff := (@parseRequest_accepts _ .unrolled _ Handler.recorder_neverRejects (ascii "GET / HTTP/1.0\n\n")
    (by decide) ()).1 16
    [.onMethod ⟨0, ascii "GET"⟩, .onUri ⟨4, ascii "/"⟩, .onVersion ⟨6, ascii "HTTP/1.0"⟩] (by decide)
  have hcall : (Entry.request.observe .unrolled Handler.recorder (ascii "GET / HTTP/1.0\n\n") 0 ()).code = .ok 16 ∧
      (Entry.request.observe .unrolled Handler.recorder (ascii "GET / HTTP/1.0\n\n") 0 ()).calls =
        [.onMethod ⟨0, ascii "GET"⟩, .onUri ⟨4, ascii "/"⟩, .onVersion ⟨6, ascii "HTTP/1.0"⟩] := by
    decide +kernel
  exact ⟨hcall, hiff.1 hcall⟩

theorem linesEvents_isHeader {p : Nat} {ls : List Line} : ∀ e ∈ linesEvents p ls, e.isHeader = true := by
  induction ls generalizing p with
  | nil => intro e he; cases he
  | cons l ls ih =>
    intro e he
    rcases List.mem_cons.1 he with rfl | he
    · rfl
    · exact ih e he

/-- Nothing but a SP after the code is no reason phrase. -/
theorem noReason_events {p : Nat} {l : StatusLine} (h : l.text.bytes = [] ∨ l.text.bytes = [SP]) (m : Slice) :
    .onStatusMsg m ∉ l.events p := by
  have hreason : (l.reason p).bytes = [] := by
    rcases h with h | h
    · simp [StatusLine.reason, Slice.stripLeading, h]
    · simp [StatusLine.reason, Slice.stripLeading, h]
  rw [StatusLine.events, if_pos hreason]
  simp

/-- **`parseResponse` accepts exactly its grammar and reports exactly what was written.** A head without a
reason phrase is accepted with or without the SP after the code, and the third digit is followed by a SP or
by the end of the line. -/
theorem parseResponse_accepts (simd : Simd) {h : Handler σ} (hn : h.NeverRejects) {b : List Byte}
    (hb : b.length < 2 ^ 31) (s : σ) :
    (∀ (n : Nat) (E : List (Event Slice)), 0 < n →
      (((Entry.response.observe simd h b 0 s).code = .ok (n : Int) ∧ (Entry.response.observe simd h b 0 s).calls = E) ↔
        ∃ hd : Head statusSyntax, hd.bytes <+: b ∧ hd.bytes.length = n ∧ E = h.hears hd.events)) ∧
    (∀ hd : Head statusSyntax, hd.bytes <+: b → hd.start.text.bytes = [] ∨ hd.start.text.bytes = [SP] →
      (Entry.response.observe simd h b 0 s).code = .ok (hd.bytes.length : Int) ∧
        ∀ m, .onStatusMsg m ∉ (Entry.response.observe simd h b 0 s).calls) ∧
    (∀ hd : Head statusSyntax, ∃ c, (hd.start.text.bytes ++ hd.start.eol.bytes).head? = some c ∧
      (c = SP ∨ c = CR ∨ c = LF)) := by
  refine ⟨?_, ?_, ?_⟩
  · intro n E hpos
    exact Entry.response.accepts simd hn hb s hpos E
  · intro hd hprefix htext
    have hcall := (Entry.response.accepts simd hn hb s (head_pos hd) _).2 ⟨hd, hprefix, rfl, rfl⟩
    refine ⟨hcall.1, ?_⟩
    intro m hm
    rw [hcall.2] at hm
    rcases List.mem_append.1 (List.mem_filter.1 hm).1 with hm | hm
    · exact noReason_events htext m hm
    · exact absurd (linesEvents_isHeader _ hm) (by simp [Event.isHeader, Event.member])
  · intro hd
    cases ht : hd.start.text.bytes with
    | nil =>
      cases hd.start.eol with
      | crlf => exact ⟨CR, rfl, Or.inr (Or.inl rfl)⟩
      | lf => exact ⟨LF, rfl, Or.inr (Or.inr rfl)⟩
    | cons c cs => exact ⟨c, rfl, Or.inl (hd.start.text_start c (by rw [ht]; rfl))⟩

/-- A status line without a reason phrase. -/
theorem parseResponse_accepts_noReason :
    ((Entry.response.observe .unrolled Handler.recorder (ascii "HTTP/1.1 204\r\n\r\n") 0 ()).code = .ok 16 ∧
        (Entry.response.observe .unrolled Handler.recorder (ascii "HTTP/1.1 204\r\n\r\n") 0 ()).calls =
          [.onVersion ⟨0, ascii "HTTP/1.1"⟩, .onStatus 204]) ∧
      ∃ hd : Head statusSyntax, hd.bytes <+: ascii "HTTP/1.1 204\r\n\r\n" ∧ hd.bytes.length = 16 ∧
        [.onVersion ⟨0, ascii "HTTP/1.1"⟩, .onStatus 204] = Handler.recorder.hears hd.events := by
  have hiff := (@parseResponse_accepts _ .unrolled _ Handler.recorder_neverRejects (ascii "HTTP/1.1 204\r\n\r\n")
    (by decide) ()).1 16 [.onVersion ⟨0, ascii "HTTP/1.1"⟩, .onStatus 204] (by decide)
  have hcall : (Entry.response.observe .unrolled Handler.recorder (ascii "HTTP/1.1 204\r\n\r\n") 0 ()).code = .ok 16 ∧
      (Entry.response.observe .unrolled Handler.recorder (ascii "HTTP/1.1 204\r\n\r\n") 0 ()).calls =
        [.onVersion ⟨0, ascii "HTTP/1.1"⟩, .onStatus 204] := by
    decide +kernel
  exact ⟨hcall, hiff.1 hcall⟩

end Httparsed
