import Httparsed.ResumeStart

/-!
# Serialised requests (httparsed.d:107, the bytes no token may have)

The comment above `tokenRanges` lists the forbidden bytes one by one. The ranges join the two braces to one
interval, and so forbid the bar between them as well, which the comment does not name. `request_roundTrip`: a request
of documented tokens is read back as it was written if and only if no bar is in its method and header names.
-/

namespace Httparsed

open Transducer Grammar

variable {σ : Type}

/-! ## Requests of documented tokens -/

/-- What lies between the two braces. -/
abbrev BAR : Byte := 0x7C

/-- `()<>@,;:\"/[]?={}` -/
def separators : List Byte :=
  [0x28, 0x29, 0x3C, 0x3E, 0x40, 0x2C, 0x3B, 0x3A, 0x5C, 0x22, 0x2F, 0x5B, 0x5D, 0x3F, 0x3D, 0x7B, 0x7D]

/-- 0x21-0x7E -/
def visibleByte (c : Byte) : Bool := decide (0x21 ≤ c) && decide (c ≤ 0x7E)

/-- Not one of "0-SP, DEL, HT" and no separator. -/
def documentedByte (c : Byte) : Bool := visibleByte c && !separators.contains c

/-- HT and 0x20-0x7E -/
def valueByte (c : Byte) : Bool := decide (c = HT) || (decide (0x20 ≤ c) && decide (c ≤ 0x7E))

/-- A header: its value neither starts nor ends with a SP or HT. -/
structure Field where
  name : Word documentedByte
  value : Text valueByte
  first : ∀ c ∈ value.bytes.head?, blank c = false
  last : ∀ c ∈ value.bytes.getLast?, blank c = false

def Field.bytes (x : Field) : List Byte := x.name.bytes ++ COLON :: SP :: (x.value.bytes ++ [CR, LF])

def Field.event (x : Field) : Event (List Byte) := .onHeader (some x.name.bytes) x.value.bytes

structure Request where
  method : Word documentedByte
  uri : Word visibleByte
  minor : Byte
  digit : isDigit minor = true
  fields : List Field

namespace Request

def version (r : Request) : List Byte := ascii "HTTP/1." ++ [r.minor]

def startBytes (r : Request) : List Byte :=
  r.method.bytes ++ SP :: (r.uri.bytes ++ SP :: (r.version ++ [CR, LF]))

def serialise (r : Request) : List Byte := r.startBytes ++ r.fields.flatMap Field.bytes ++ [CR, LF]

def events (r : Request) : List (Event (List Byte)) :=
  .onMethod r.method.bytes :: .onUri r.uri.bytes :: .onVersion r.version :: r.fields.map Field.event

/-- The head is accepted whole, and the application hears what was serialised. -/
def RoundTrips (r : Request) (simd : Simd) (h : Handler σ) (body : List Byte) (s : σ) : Prop :=
  (Entry.request.observe simd h (r.serialise ++ body) 0 s).code = .ok (r.serialise.length : Int) ∧
    (Entry.request.observe simd h (r.serialise ++ body) 0 s).calls.map Event.text =
      r.events.filter fun e => h.has e.member

end Request

/-! ## Documented bytes and the bytes of the parser -/

/-- **The parser's tokens are the documented ones without the bar.** -/
theorem tokenByte_eq : ∀ c : Byte, tokenByte c = (documentedByte c && !(c == BAR)) :=
  forall_byte (by decide +kernel)

theorem uriByte_of_visible : ∀ c : Byte, visibleByte c = true → uriByte c = true :=
  forall_byte (by decide +kernel)

theorem textByte_of_value : ∀ c : Byte, valueByte c = true → textByte c = true :=
  forall_byte (by decide +kernel)

theorem versionByte_of_digit : ∀ c : Byte, isDigit c = true → versionByte c = true :=
  forall_byte (by decide +kernel)

theorem tokenByte_of_documented {c : Byte} (h : documentedByte c = true) (hbar : c ≠ BAR) : tokenByte c = true := by
  rw [tokenByte_eq, h, Bool.true_and, beq_false_of_ne hbar]
  rfl

theorem tokenByte_BAR : tokenByte BAR = false := by decide

def Grammar.Word.token (w : Word documentedByte) (h : BAR ∉ w.bytes) : Word tokenByte :=
  ⟨w.bytes, w.nonempty, fun c hc => tokenByte_of_documented (w.all c hc) fun hbar => h (hbar ▸ hc)⟩

/-- The first bar of a token. -/
theorem bar_split {w : Word documentedByte} (h : BAR ∈ w.bytes) :
    ∃ u v, w.bytes = u ++ BAR :: v ∧ ∀ c ∈ u, tokenByte c = true := by
  obtain ⟨u, v, hw, hu⟩ := List.eq_append_cons_of_mem h
  refine ⟨u, v, hw, fun c hc => ?_⟩
  have hmem : c ∈ w.bytes := by
    rw [hw]
    exact List.mem_append_left _ hc
  exact tokenByte_of_documented (w.all c hmem) fun hbar => hu (hbar ▸ hc)

/-! ## Requests without a bar -/

/-- The header line of a field. -/
def Field.line (x : Field) (h : BAR ∉ x.name.bytes) : Line where
  content := .named (x.name.token h) ⟨SP :: x.value.bytes, by
    intro c hc
    rcases List.mem_cons.1 hc with rfl | hc
    · rfl
    · exact textByte_of_value c (x.value.all c hc)⟩
  eol := .crlf

theorem Field.line_bytes (x : Field) (h : BAR ∉ x.name.bytes) : (x.line h).bytes = x.bytes := by
  simp [Field.line, Field.bytes, Line.bytes, Content.bytes, Word.token, Eol.bytes]

/-- The value that is reported is the value of the field. -/
theorem Field.line_text (x : Field) (h : BAR ∉ x.name.bytes) (p : Nat) : ((x.line h).event p).text = x.event := by
  have hfirst : (SP :: x.value.bytes).dropWhile blank = x.value.bytes := by
    rw [List.dropWhile_cons, if_pos (show blank SP = true from rfl)]
    cases hv : x.value.bytes with
    | nil => rfl
    | cons c cs =>
      have hc := x.first c (by rw [hv]; rfl)
      rw [List.dropWhile_cons, if_neg (by rw [hc]; exact Bool.false_ne_true)]
  have hlast : x.value.bytes.rdropWhile blank = x.value.bytes := by
    rw [List.rdropWhile_eq_self_iff]
    intro hne
    rw [x.last _ (List.getLast?_eq_some_getLast hne)]
    exact Bool.false_ne_true
  show Event.onHeader (some x.name.bytes) (((SP :: x.value.bytes).dropWhile blank).rdropWhile blank) = x.event
  rw [hfirst, hlast]
  rfl

def fieldLines (xs : List Field) (h : ∀ x ∈ xs, BAR ∉ x.name.bytes) : List Line := xs.pmap Field.line h

theorem fieldLines_bytes {xs : List Field} (h : ∀ x ∈ xs, BAR ∉ x.name.bytes) :
    linesBytes (fieldLines xs h) = xs.flatMap Field.bytes := by
  induction xs with
  | nil => rfl
  | cons x xs ih =>
    have htail := ih fun y hy => h y (List.mem_cons_of_mem _ hy)
    simp only [fieldLines, List.pmap_cons, linesBytes, List.flatMap_cons, Field.line_bytes] at htail ⊢
    rw [htail]

theorem fieldLines_text {xs : List Field} (h : ∀ x ∈ xs, BAR ∉ x.name.bytes) (p : Nat) :
    (linesEvents p (fieldLines xs h)).map Event.text = xs.map Field.event := by
  induction xs generalizing p with
  | nil => rfl
  | cons x xs ih =>
    have htail := ih fun y hy => h y (List.mem_cons_of_mem _ hy)
    simp only [fieldLines, List.pmap_cons, linesEvents, List.map_cons, Field.line_text] at htail ⊢
    rw [htail]

theorem fieldLines_opens {xs : List Field} (h : ∀ x ∈ xs, BAR ∉ x.name.bytes) : Opens (fieldLines xs h) := by
  cases xs with
  | nil => simp [fieldLines, Opens]
  | cons x xs =>
    intro l hl
    obtain rfl := Option.some.inj (show some (x.line _) = some l from hl)
    rfl

namespace Request

/-- The request line of a request. -/
def line (r : Request) (h : BAR ∉ r.method.bytes) : RequestLine where
  method := r.method.token h
  gap₁ := oneSpace
  uri := ⟨r.uri.bytes, r.uri.nonempty, fun c hc => uriByte_of_visible c (r.uri.all c hc)⟩
  gap₂ := oneSpace
  version := ⟨r.version, by simp [version], by
    intro c hc
    rcases List.mem_append.1 hc with hc | hc
    · exact List.all_eq_true.1 (by decide : (ascii "HTTP/1.").all versionByte = true) c hc
    · rw [List.mem_singleton.1 hc]
      exact versionByte_of_digit _ r.digit⟩
  eol := .crlf

theorem line_bytes (r : Request) (h : BAR ∉ r.method.bytes) : (r.line h).bytes = r.startBytes := by
  simp [line, startBytes, RequestLine.bytes, Word.token, oneSpace, Eol.bytes]

def head (r : Request) (h : BAR ∉ r.method.bytes) (hfields : ∀ x ∈ r.fields, BAR ∉ x.name.bytes) :
    Head requestSyntax where
  lead := none
  start := r.line h
  lines := fieldLines r.fields hfields
  opens := fieldLines_opens hfields
  eol := .crlf

theorem head_bytes (r : Request) (h : BAR ∉ r.method.bytes) (hfields : ∀ x ∈ r.fields, BAR ∉ x.name.bytes) :
    (r.head h hfields).bytes = r.serialise := by
  show [] ++ (r.line h).bytes ++ linesBytes (fieldLines r.fields hfields) ++ [CR, LF] = r.serialise
  rw [List.nil_append, line_bytes, fieldLines_bytes]
  rfl

theorem head_text (r : Request) (h : BAR ∉ r.method.bytes) (hfields : ∀ x ∈ r.fields, BAR ∉ x.name.bytes) :
    (r.head h hfields).events.map Event.text = r.events := by
  show ((r.line h).events 0 ++ linesEvents _ (fieldLines r.fields hfields)).map Event.text = r.events
  rw [List.map_append, fieldLines_text]
  rfl

theorem serialise_pos (r : Request) : 0 < r.serialise.length := by
  simp only [serialise, List.length_append, List.length_cons]
  omega

/-! ## Requests with a bar -/

/-- A bar in the method. -/
theorem method_refused {r : Request} (h : BAR ∈ r.method.bytes) (body : List Byte) :
    (answer requestLine (r.serialise ++ body) 0).code = err .token := by
  obtain ⟨u, v, hmethod, hu⟩ := bar_split h
  obtain ⟨rest, hrest⟩ : ∃ rest, r.serialise ++ body = u ++ BAR :: rest := by
    rw [serialise, startBytes, hmethod]
    simp only [List.append_assoc, List.cons_append]
    exact ⟨_, rfl⟩
  obtain ⟨c, cs, hcs, hc⟩ : ∃ c cs, u ++ BAR :: rest = c :: cs ∧ c ≠ CR ∧ c ≠ LF := by
    cases u with
    | nil => exact ⟨BAR, rest, rfl, by decide, by decide⟩
    | cons c u =>
      obtain ⟨-, -, h1, h2, -⟩ := tokenByte_plain (hu c (List.mem_cons_self ..))
      exact ⟨c, _, rfl, h1, h2⟩
  have hlead : run (headStep requestLine) 0 (.inl .begin) (c :: cs) =
      run (headStep requestLine) 0 (.inl (.line 0 (requestLine.start 0))) (c :: cs) := run_leadBytes none hc
  have hrun := run_first requestFirst 0 hu (BAR :: rest)
  rw [run_halt (requestFirst.refuse _ _ BAR tokenByte_BAR (by decide))] at hrun
  have hread : read requestLine (u ++ BAR :: rest) 0 = ([], .halted (.error (.token, 0)) rest) := by
    unfold read
    rw [if_pos rfl, hcs, hlead, ← hcs, run_headStep_line, hrun]
    rfl
  rw [hrest, answer_of_token hread]

/-- A bar in a header name, behind headers without one. -/
theorem field_refused {r : Request} (hmethod : BAR ∉ r.method.bytes) {xs ys : List Field} {x : Field}
    (hfields : r.fields = xs ++ x :: ys) (hxs : ∀ y ∈ xs, BAR ∉ y.name.bytes) (hx : BAR ∈ x.name.bytes)
    (body : List Byte) :
    (answer requestLine (r.serialise ++ body) 0).code = err .token := by
  obtain ⟨u, v, hname, hu⟩ := bar_split hx
  let pre := r.startBytes ++ xs.flatMap Field.bytes
  have hpre : pre = leadBytes none ++ requestGrammar.bytes (r.line hmethod) ++ linesBytes (fieldLines xs hxs) := by
    show _ = [] ++ (r.line hmethod).bytes ++ _
    rw [List.nil_append, line_bytes, fieldLines_bytes]
  obtain ⟨rest, hrest⟩ : ∃ rest, r.serialise ++ body = pre ++ (u ++ BAR :: rest) := by
    rw [serialise, hfields, List.flatMap_append, List.flatMap_cons, Field.bytes, hname]
    simp only [pre, List.append_assoc, List.cons_append]
    exact ⟨_, rfl⟩
  have hrun : run headerStep pre.length ⟨pre.length, .lineStart (!(fieldLines xs hxs).isEmpty)⟩ (u ++ BAR :: rest) =
      ([], .halted (.error (.token, pre.length)) rest) :=
    run_name_refused pre.length hu tokenByte_BAR (by decide) (Or.inr ⟨by decide, by decide, fun _ => rfl⟩) rest
  rw [hrest, (answer_lines requestGrammar none (r.line hmethod) (fieldLines_opens hxs) hpre _ hrun.symm).1]
  rfl

end Request

/-- **Round trip of requests.** A request of documented tokens, followed by any body, is accepted whole and
reported as it was written if and only if there is no bar in its method and header names. -/
theorem request_roundTrip (r : Request) (simd : Simd) {h : Handler σ} (hn : h.NeverRejects) (body : List Byte)
    (hlen : (r.serialise ++ body).length < 2 ^ 31) (s : σ) :
    r.RoundTrips simd h body s ↔ BAR ∉ r.method.bytes ∧ ∀ x ∈ r.fields, BAR ∉ x.name.bytes := by
  constructor
  · rintro ⟨hcode, -⟩
    rw [Entry.request.observe_code simd hn hlen (Nat.zero_le _) s] at hcode
    have hne : (answer requestLine (r.serialise ++ body) 0).code ≠ err .token := by
      rw [show (answer requestLine (r.serialise ++ body) 0).code = r.serialise.length from Except.ok.inj hcode]
      have hneg := err_neg .token
      omega
    have hmethod : BAR ∉ r.method.bytes := fun hbar => hne (Request.method_refused hbar body)
    refine ⟨hmethod, ?_⟩
    rcases all_or_split (fun x : Field => decide (BAR ∉ x.name.bytes)) r.fields with hall | ⟨xs, x, ys, hsplit, hxs, hx⟩
    · exact fun x hx => of_decide_eq_true (hall x hx)
    · have hbar : BAR ∈ x.name.bytes := not_not.1 (of_decide_eq_false hx)
      exact absurd (Request.field_refused hmethod hsplit (fun y hy => of_decide_eq_true (hxs y hy)) hbar body) hne
  · rintro ⟨hmethod, hfields⟩
    have hbytes := r.head_bytes hmethod hfields
    obtain ⟨hcode, hcalls⟩ := (Entry.request.accepts simd hn hlen s r.serialise_pos _).2
      ⟨r.head hmethod hfields, ⟨body, congrArg (· ++ body) hbytes⟩, congrArg List.length hbytes, rfl⟩
    refine ⟨hcode, ?_⟩
    rw [hcalls, Handler.hears, ← r.head_text hmethod hfields, List.filter_map]
    congr 1
    refine List.filter_congr fun e _ => ?_
    rw [Function.comp_apply, Event.text, Event.map_member]

/-- A request with two headers. -/
def twoFields : Request where
  method := word "POST" (by decide) (by decide)
  uri := word "/a?b=c" (by decide) (by decide)
  minor := 0x31
  digit := rfl
  fields := [⟨word "Host" (by decide) (by decide), ⟨ascii "h", List.all_eq_true.1 (by decide)⟩,
      by rintro c ⟨⟩; rfl, by rintro c ⟨⟩; rfl⟩,
    ⟨word "X-Note" (by decide) (by decide), ⟨[], by simp⟩, by simp, by simp⟩]

theorem request_roundTrip_twoFields : twoFields.RoundTrips .unrolled Handler.recorder (ascii "body") () :=
  (request_roundTrip twoFields .unrolled Handler.recorder_neverRejects (ascii "body") (by decide) ()).2
    ⟨by decide, by decide⟩

/-- The same request line, and a header named "a|b". -/
def barField : Request :=
  { twoFields with
    fields := [⟨word "a|b" (by decide) (by decide), ⟨ascii "1", List.all_eq_true.1 (by decide)⟩,
      by rintro c ⟨⟩; rfl, by rintro c ⟨⟩; rfl⟩] }

/-- The parser stops with `token` behind the request line. -/
theorem request_roundTrip_bar :
    barField.serialise = ascii "POST /a?b=c HTTP/1.1\r\na|b: 1\r\n\r\n" ∧
      (Entry.request.observe .unrolled Handler.recorder barField.serialise 0 ()).result = .ok (err .token, 22) ∧
      ¬ barField.RoundTrips .unrolled Handler.recorder [] () := by
  have hresult : (Entry.request.observe .unrolled Handler.recorder (barField.serialise ++ []) 0 ()).result =
      .ok (err .token, 22) := by decide +kernel
  refine ⟨by decide, by rwa [List.append_nil] at hresult, ?_⟩
  rintro ⟨hcode, -⟩
  rw [Report.code, hresult] at hcode
  have hlen : err .token = (barField.serialise.length : Int) := Except.ok.inj hcode
  have hneg := err_neg .token
  omega

end Httparsed
