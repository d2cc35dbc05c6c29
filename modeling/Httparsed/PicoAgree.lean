import Httparsed.PicoSafety
import Httparsed.MsgOutcome
import Httparsed.RoundTrip

/-!
# The two parsers agree

On a `Msg` with as many free slots as picohttpparser is given, both parsers accept the same requests, of the
same length and with the same fields, but for one difference: a method or a header name with a `|`, which only
picohttpparser takes (`parseRequest_agrees`). Responses are alike, but for the empty line in front that only
this parser tolerates (`parseResponse_agrees`).

Both are read off the grammars: a head of the one is a message of the other.
-/

namespace Httparsed.Pico

open Grammar

/-! ## Words -/

/-- **The token table of picohttpparser** is the documented one. -/
theorem isToken_eq : ∀ c : Byte, isToken c = documentedByte c :=
  forall_byte (by decide +kernel)

theorem isToken_of_tokenByte {c : Byte} (h : tokenByte c = true) : isToken c = true ∧ c ≠ BAR := by
  refine ⟨?_, ?_⟩
  · rw [tokenByte_eq, Bool.and_eq_true] at h
    rw [isToken_eq, h.1]
  · rintro rfl
    cases h

theorem token_of_word (w : Word tokenByte) : ∃ v : Word isToken, v.bytes = w.bytes ∧ BAR ∉ v.bytes :=
  ⟨⟨w.bytes, w.nonempty, fun c hc => (isToken_of_tokenByte (w.all c hc)).1⟩, rfl,
    fun h => (isToken_of_tokenByte (w.all _ h)).2 rfl⟩

theorem word_of_token (v : Word isToken) (h : BAR ∉ v.bytes) : ∃ w : Word tokenByte, w.bytes = v.bytes :=
  ⟨⟨v.bytes, v.nonempty, fun c hc =>
    tokenByte_of_documented (by rw [← isToken_eq, v.all c hc]) fun hbar => h (hbar ▸ hc)⟩, rfl⟩

theorem version_of_http1 {ver : List Byte} {d : Int} (h : http1 ver = some d) :
    ∃ v : Version, v.bytes = ver ∧ digit v.minor = d := by
  obtain ⟨c, rfl, hc, rfl⟩ := http1_iff.1 h
  exact ⟨⟨c, hc⟩, rfl, rfl⟩

theorem http1_version (v : Version) : http1 v.bytes = some (digit v.minor) :=
  http1_iff.2 ⟨v.minor, rfl, v.minor_digit, rfl⟩

theorem word_of_version (v : Version) : ∃ w : Word versionByte, w.bytes = v.bytes := by
  refine ⟨⟨v.bytes, List.append_ne_nil_of_right_ne_nil _ (List.cons_ne_nil _ _), fun c hc => ?_⟩, rfl⟩
  rcases List.mem_append.1 hc with hc | hc
  · have hall : (ascii "HTTP/1.").all versionByte = true := by decide +kernel
    exact List.all_eq_true.1 hall c hc
  · rw [List.mem_singleton.1 hc]
    exact versionByte_of_digit _ v.minor_digit

/-! ## Lines -/

/-- What the application of the one parser is told and what the other stores. -/
def PhrHeader.toHeader (h : PhrHeader) : Header := ⟨h.name, some h.value⟩

/-- A line of the one grammar and a line of the other, with the same text and the same header. -/
structure Same (l : Grammar.Line) (l' : Line) : Prop where
  bytes : l.bytes = l'.bytes
  header : ∀ p, (l.event p).header? = some (l'.header p).toHeader
  isNamed : l.content.isNamed = l'.content.isNamed

/-- No `|` in the name. -/
def Content.NoBar : Content → Prop
  | .named name _ => BAR ∉ name.bytes
  | .continued _ _ => True

theorem line_of_grammar (l : Grammar.Line) : ∃ l' : Line, Same l l' ∧ l'.content.NoBar := by
  obtain ⟨x, eol⟩ := l
  cases x with
  | named n raw =>
    obtain ⟨v, hv, hbar⟩ := token_of_word n
    refine ⟨⟨.named v raw, eol⟩, ⟨?_, fun p => ?_, rfl⟩, hbar⟩
    · simp only [Grammar.Line.bytes, Line.bytes, Grammar.Content.bytes, Content.bytes, hv]
    · simp only [Line.header, PhrHeader.toHeader, Content.name, Content.rawValue, hv]
      rfl
  | continued raw start => exact ⟨⟨.continued raw start, eol⟩, ⟨rfl, fun _ => rfl, rfl⟩, trivial⟩

theorem grammar_of_line (l' : Line) (h : l'.content.NoBar) : ∃ l, Same l l' := by
  obtain ⟨x, eol⟩ := l'
  cases x with
  | named v raw =>
    obtain ⟨n, hn⟩ := word_of_token v h
    refine ⟨⟨.named n raw, eol⟩, ?_, fun p => ?_, rfl⟩
    · simp only [Grammar.Line.bytes, Line.bytes, Grammar.Content.bytes, Content.bytes, hn]
    · simp only [Grammar.Line.event, Grammar.Content.name, Grammar.Content.rawValue, hn]
      rfl
  | continued raw start => exact ⟨⟨.continued raw start, eol⟩, rfl, fun _ => rfl, rfl⟩

theorem lines_of_grammar (ls : List Grammar.Line) :
    ∃ ls' : List Line, List.Forall₂ Same ls ls' ∧ ∀ l ∈ ls', l.content.NoBar := by
  induction ls with
  | nil => exact ⟨[], .nil, fun _ h => absurd h List.not_mem_nil⟩
  | cons l ls ih =>
    obtain ⟨ls', hsame, hbar⟩ := ih
    obtain ⟨l', hl, hlbar⟩ := line_of_grammar l
    exact ⟨l' :: ls', .cons hl hsame, List.forall_mem_cons.2 ⟨hlbar, hbar⟩⟩

theorem grammar_of_lines (ls' : List Line) (h : ∀ l ∈ ls', l.content.NoBar) : ∃ ls, List.Forall₂ Same ls ls' := by
  induction ls' with
  | nil => exact ⟨[], .nil⟩
  | cons l' ls' ih =>
    obtain ⟨hl, hls⟩ := List.forall_mem_cons.1 h
    obtain ⟨ls, hsame⟩ := ih hls
    obtain ⟨l, hlsame⟩ := grammar_of_line l' hl
    exact ⟨l :: ls, .cons hlsame hsame⟩

section

variable {ls : List Grammar.Line} {ls' : List Line}

theorem same_bytes (h : List.Forall₂ Same ls ls') : Grammar.linesBytes ls = linesBytes ls' := by
  induction h with
  | nil => rfl
  | cons hl _ ih => rw [linesBytes_cons, ← ih, ← hl.bytes]; rfl

theorem same_headers (h : List.Forall₂ Same ls ls') (p : Nat) :
    Message.headersOf (linesEvents p ls) = (linesHeaders p ls').map PhrHeader.toHeader := by
  induction h generalizing p with
  | nil => rfl
  | cons hl _ ih =>
    rw [linesEvents, Message.headersOf, List.filterMap_cons_some (hl.header p), linesHeaders, List.map_cons, ← hl.bytes]
    exact congrArg _ (ih _)

theorem same_opens (h : List.Forall₂ Same ls ls') :
    Opens ls ↔ ∀ l ∈ ls'.head?, l.content.isNamed = true := by
  cases h with
  | nil => simp [Opens]
  | cons hl _ => simp [Opens, hl.isNamed]

end

/-- The names stored for some lines have no `|`. -/
theorem noBar_headers (p : Nat) (ls : List Line) :
    (∀ h ∈ linesHeaders p ls, ∀ name ∈ h.name, BAR ∉ name.bytes) ↔ ∀ l ∈ ls, l.content.NoBar := by
  induction ls generalizing p with
  | nil => simp [linesHeaders]
  | cons l ls ih =>
    rw [linesHeaders, List.forall_mem_cons, List.forall_mem_cons, ih]
    refine and_congr_left' ?_
    obtain ⟨x, eol⟩ := l
    cases x with
    | named n raw => simp [Line.header, Content.name, Content.NoBar]
    | continued raw start => simp [Line.header, Content.name, Content.NoBar]

/-! ## Requests -/

/-- A head of the one grammar and a request of the other, part by part. -/
structure SameRequest (hd : Head requestSyntax) (q : Request) : Prop where
  lead : hd.lead = q.lead
  method : hd.start.method.bytes = q.method.bytes
  gap₁ : hd.start.gap₁ = q.gap₁
  path : hd.start.uri = q.path
  gap₂ : hd.start.gap₂ = q.gap₂
  version : hd.start.version.bytes = q.version.bytes
  eol : hd.start.eol = q.eol
  lines : List.Forall₂ Same hd.lines q.headers.lines
  close : hd.eol = q.headers.eol

/-- No `|` in the method and in the names. -/
def PhrRequest.NoBar (out : PhrRequest) : Prop :=
  BAR ∉ out.method.bytes ∧ ∀ h ∈ out.headers, ∀ name ∈ h.name, BAR ∉ name.bytes

theorem request_of_head (hd : Head requestSyntax) {d : Int} (hver : http1 hd.start.version.bytes = some d) :
    ∃ q : Request, SameRequest hd q ∧ q.out.NoBar := by
  obtain ⟨m, hm, hbar⟩ := token_of_word hd.start.method
  obtain ⟨v, hv, -⟩ := version_of_http1 hver
  obtain ⟨ls, hsame, hlines⟩ := lines_of_grammar hd.lines
  exact ⟨⟨hd.lead, m, hd.start.gap₁, hd.start.uri, hd.start.gap₂, v, hd.start.eol,
      ⟨ls, (same_opens hsame).1 hd.opens, hd.eol⟩⟩,
    ⟨rfl, hm.symm, rfl, rfl, rfl, hv.symm, rfl, hsame, rfl⟩, hbar, (noBar_headers _ ls).2 hlines⟩

theorem head_of_request (q : Request) (h : q.out.NoBar) : ∃ hd : Head requestSyntax, SameRequest hd q := by
  obtain ⟨m, hm⟩ := word_of_token q.method h.1
  obtain ⟨v, hv⟩ := word_of_version q.version
  obtain ⟨ls, hsame⟩ := grammar_of_lines q.headers.lines ((noBar_headers _ _).1 h.2)
  exact ⟨⟨q.lead, ⟨m, q.gap₁, q.path, q.gap₂, v, q.eol⟩, ls, (same_opens hsame).2 q.headers.opens, q.headers.eol⟩,
    rfl, hm, rfl, rfl, rfl, hv, rfl, hsame, rfl⟩

namespace SameRequest

variable {hd : Head requestSyntax} {q : Request}

theorem startBytes (h : SameRequest hd q) : leadBytes hd.lead ++ hd.start.bytes = q.startBytes := by
  simp only [Request.startBytes, RequestLine.bytes, h.lead, h.method, h.gap₁, h.path, h.gap₂, h.version, h.eol,
    List.append_assoc]

theorem bytes (h : SameRequest hd q) : hd.bytes = q.bytes := by
  have hstart := h.startBytes
  rw [Head.bytes, Request.bytes, Section.bytes, ← hstart, same_bytes h.lines, h.close]
  exact List.append_assoc _ _ _

theorem lines_length (h : SameRequest hd q) : hd.lines.length = q.headers.lines.length := h.lines.length_eq

/-- What a message has been told of is what picohttpparser has stored. -/
theorem told {k : MsgKind} (h : SameRequest hd q) {m m' : Message k} (htold : m.Told hd.events m') :
    m'.method = some q.out.method ∧ m'.uri = some q.out.path ∧ m'.status = m.status ∧ m'.statusMsg = m.statusMsg ∧
      m'.headers = m.headers ++ q.out.headers.map PhrHeader.toHeader := by
  obtain ⟨hmethod, huri, -, hstatus, hmsg, hheaders⟩ := request_told htold
  refine ⟨?_, ?_, hstatus, hmsg, ?_⟩
  · rw [hmethod, h.method, h.lead]
    rfl
  · rw [huri]
    show some (Slice.mk ((leadBytes hd.lead).length + (hd.start.method.bytes ++ hd.start.gap₁.bytes).length)
      hd.start.uri.bytes) = _
    rw [h.path, h.method, h.gap₁, h.lead]
    simp [Request.out, Request.pathOffset]
  · have hoffset : hd.bodyOffset = q.startBytes.length := congrArg List.length h.startBytes
    rw [hheaders, same_headers h.lines, hoffset]
    rfl

end SameRequest

/-- **Requests.** A buffer that picohttpparser accepts without a `|` in the method or in a name is one that
`parseRequest` accepts on a `Msg` with as many free slots, and there are no others; the lengths and the fields are
the same. -/
theorem parseRequest_agrees (simd simd' : Simd) {b : List Byte} (hb : b.length < 2 ^ 31) {m : Msg} {max_headers : Nat}
    (hroom : m.m_headersLength + max_headers = 32) {n : Nat} (hn : 0 < n) :
    ((∃ lastPos m', Entry.request.parseMsg simd b 0 m = .ok ((n, lastPos), m')) ↔
      ∃ out, phrParseRequest simd' max_headers b 0 = .ok (n, some out) ∧ out.NoBar) ∧
    ∀ lastPos m' out, Entry.request.parseMsg simd b 0 m = .ok ((n, lastPos), m') →
      phrParseRequest simd' max_headers b 0 = .ok (n, some out) →
        m'.method = some out.method ∧ m'.uri = some out.path ∧ m'.version = out.minor_version ∧ m'.status = m.status ∧
          m'.statusMsg = m.statusMsg ∧ m'.headers = m.headers ++ out.headers.map PhrHeader.toHeader := by
  have hhead : ∀ {hd : Head requestSyntax} {q : Request}, SameRequest hd q →
      (m.m_headersLength + hd.lines.length ≤ msgKind.slots ↔ q.headers.lines.length ≤ max_headers) := by
    intro hd q h
    show m.m_headersLength + hd.lines.length ≤ 32 ↔ _
    rw [h.lines_length]
    omega
  have haccepted : ∀ {hd : Head requestSyntax}, hd.bytes <+: b → hd.bytes.length = n →
      (∀ e ∈ hd.events, e.refused msgKind = false) → m.m_headersLength + hd.lines.length ≤ msgKind.slots →
        ∃ q : Request, SameRequest hd q ∧ q.out.NoBar ∧
          phrParseRequest simd' max_headers b 0 = .ok (n, some q.out) := by
    intro hd hfront hlen hall hle
    obtain ⟨d, hver⟩ := Option.isSome_iff_exists.1 (request_accepted.1 hall)
    obtain ⟨q, hsame, hbar⟩ := request_of_head hd hver
    refine ⟨q, hsame, hbar, (phrParseRequest_ok_iff simd' hb).2 ⟨q, ?_, ?_, (hhead hsame).1 hle, rfl⟩⟩
    · rwa [← hsame.bytes]
    · rw [← hsame.bytes, hlen]
  refine ⟨⟨?_, ?_⟩, ?_⟩
  · intro hcall
    obtain ⟨hd, hfront, hlen, hall, hle⟩ := (Entry.request.parseMsg_pos_iff simd hb m hn).1 hcall
    obtain ⟨q, -, hbar, hphr⟩ := haccepted hfront hlen hall hle
    exact ⟨q.out, hphr, hbar⟩
  · rintro ⟨out, hphr, hbar⟩
    obtain ⟨q, hfront, hlen, hle, rfl⟩ := (phrParseRequest_ok_iff simd' hb).1 hphr
    obtain ⟨hd, hsame⟩ := head_of_request q hbar
    refine (Entry.request.parseMsg_pos_iff simd hb m hn).2 ⟨hd, ?_, ?_, ?_, (hhead hsame).2 hle⟩
    · show hd.bytes <+: b
      rwa [hsame.bytes]
    · show hd.bytes.length = n
      rw [hsame.bytes]
      omega
    · refine request_accepted.2 (Option.isSome_iff_exists.2 ⟨digit q.version.minor, ?_⟩)
      rw [hsame.version, http1_version]
  · intro lastPos m' out hcall hphr
    obtain ⟨hd, hfront, hlen, hall, hle⟩ := (Entry.request.parseMsg_pos_iff simd hb m hn).1 ⟨lastPos, m', hcall⟩
    obtain ⟨q, hsame, -, hphr'⟩ := haccepted hfront hlen hall hle
    obtain rfl : out = q.out := by
      rw [hphr'] at hphr
      exact (Option.some.inj (Prod.mk.inj (Except.ok.inj hphr)).2).symm
    have hstored := Entry.request.parseMsg_head simd hb m hd hfront hall
    rw [if_pos hle] at hstored
    obtain ⟨m₁, hm₁, htold⟩ := hstored
    rw [hcall] at hm₁
    obtain rfl : m' = m₁ := (Prod.mk.inj (Except.ok.inj hm₁)).2
    obtain ⟨hmethod, huri, hstatus, hmsg, hheaders⟩ := hsame.told htold
    refine ⟨hmethod, huri, ?_, hstatus, hmsg, hheaders⟩
    have hversion := (request_told htold).2.2.1
    rw [hversion]
    show (http1 hd.start.version.bytes).getD (err .invalidVersion) = _
    rw [hsame.version, http1_version]
    rfl

/-- A request with two headers, the second of which goes on. -/
def agreedRequest : List Byte := ascii "GET / HTTP/1.1\r\nHost: a|b\r\nB: c\r\n d\r\n\r\n"

/-- What picohttpparser returns for it. -/
def agreedOut : PhrRequest where
  method := ⟨0, ascii "GET"⟩
  path := ⟨4, ascii "/"⟩
  minor_version := 1
  headers := [⟨some ⟨16, ascii "Host"⟩, ⟨22, ascii "a|b"⟩⟩, ⟨some ⟨27, ascii "B"⟩, ⟨30, ascii "c"⟩⟩,
    ⟨none, ⟨33, ascii " d"⟩⟩]

theorem agreedOut_noBar : agreedOut.NoBar := by
  unfold PhrRequest.NoBar
  decide

/-- Both read it to its end, and the message holds what picohttpparser returns. -/
theorem parseRequest_agrees_continued :
    ∃ lastPos m', Entry.request.parseMsg .unrolled agreedRequest 0 (.init msgKind) = .ok (((39 : Nat), lastPos), m') ∧
      phrParseRequest (.sse42 default) 32 agreedRequest 0 = .ok (((39 : Nat) : Int), some agreedOut) ∧
      m'.method = some ⟨0, ascii "GET"⟩ ∧ m'.uri = some ⟨4, ascii "/"⟩ ∧ m'.version = (1 : Int) ∧
      m'.headers = [⟨some ⟨16, ascii "Host"⟩, some ⟨22, ascii "a|b"⟩⟩, ⟨some ⟨27, ascii "B"⟩, some ⟨30, ascii "c"⟩⟩,
        ⟨none, some ⟨33, ascii " d"⟩⟩] := by
  have hphr : phrParseRequest (.sse42 default) 32 agreedRequest 0 = .ok (((39 : Nat) : Int), some agreedOut) := by
    decide +kernel
  have hagrees := @parseRequest_agrees .unrolled (.sse42 default) agreedRequest (by decide) (.init msgKind) 32 rfl 39
    (by decide)
  obtain ⟨lastPos, m', hcall⟩ := hagrees.1.2 ⟨agreedOut, hphr, agreedOut_noBar⟩
  obtain ⟨hmethod, huri, hversion, -, -, hheaders⟩ := hagrees.2 lastPos m' agreedOut hcall hphr
  exact ⟨lastPos, m', hcall, hphr, hmethod, huri, hversion, hheaders⟩

/-! ## Responses -/

/-- A head of the one grammar, without an empty line in front, and a response of the other. -/
structure SameResponse (hd : Head statusSyntax) (q : Response) : Prop where
  lead : hd.lead = none
  version : hd.start.version.bytes = q.version.bytes
  gap : hd.start.gap = q.gap
  code : hd.start.code = q.code
  text : hd.start.text = q.text
  eol : hd.start.eol = q.eol
  lines : List.Forall₂ Same hd.lines q.headers.lines
  close : hd.eol = q.headers.eol

/-- No `|` in the names. -/
def PhrResponse.NoBar (out : PhrResponse) : Prop := ∀ h ∈ out.headers, ∀ name ∈ h.name, BAR ∉ name.bytes

theorem response_of_head (hd : Head statusSyntax) (hlead : hd.lead = none) {d : Int}
    (hver : http1 hd.start.version.bytes = some d) : ∃ q : Response, SameResponse hd q ∧ q.out.NoBar := by
  obtain ⟨v, hv, -⟩ := version_of_http1 hver
  obtain ⟨ls, hsame, hlines⟩ := lines_of_grammar hd.lines
  exact ⟨⟨v, hd.start.gap, hd.start.code, hd.start.text, hd.start.text_start, hd.start.eol,
      ⟨ls, (same_opens hsame).1 hd.opens, hd.eol⟩⟩,
    ⟨hlead, hv.symm, rfl, rfl, rfl, rfl, hsame, rfl⟩, (noBar_headers _ ls).2 hlines⟩

theorem head_of_response (q : Response) (h : q.out.NoBar) : ∃ hd : Head statusSyntax, SameResponse hd q := by
  obtain ⟨v, hv⟩ := word_of_version q.version
  obtain ⟨ls, hsame⟩ := grammar_of_lines q.headers.lines ((noBar_headers _ _).1 h)
  exact ⟨⟨none, ⟨v, q.gap, q.code, q.text, q.text_start, q.eol⟩, ls, (same_opens hsame).2 q.headers.opens,
    q.headers.eol⟩, rfl, hv, rfl, rfl, rfl, rfl, hsame, rfl⟩

namespace SameResponse

variable {hd : Head statusSyntax} {q : Response}

theorem startBytes (h : SameResponse hd q) : leadBytes hd.lead ++ hd.start.bytes = q.startBytes := by
  simp only [Response.startBytes, StatusLine.bytes, h.lead, h.version, h.gap, h.code, h.text, h.eol, leadBytes,
    List.nil_append]

theorem bytes (h : SameResponse hd q) : hd.bytes = q.bytes := by
  have hstart := h.startBytes
  rw [Head.bytes, Response.bytes, Section.bytes, ← hstart, same_bytes h.lines, h.close]
  exact List.append_assoc _ _ _

theorem lines_length (h : SameResponse hd q) : hd.lines.length = q.headers.lines.length := h.lines.length_eq

theorem told {k : MsgKind} (h : SameResponse hd q) {m m' : Message k} (htold : m.Told hd.events m') :
    m'.method = m.method ∧ m'.uri = m.uri ∧ m'.status = q.out.status ∧
      m'.statusMsg = (if q.out.msg.bytes = [] then m.statusMsg else some q.out.msg) ∧
      m'.headers = m.headers ++ q.out.headers.map PhrHeader.toHeader := by
  obtain ⟨hmethod, huri, -, hstatus, hmsg, hheaders⟩ := status_told htold
  refine ⟨hmethod, huri, ?_, ?_, ?_⟩
  · rw [hstatus, h.code]
    rfl
  · have hreason : hd.start.reason (leadBytes hd.lead).length = q.out.msg := by
      show Slice.stripLeading (· == SP) ⟨(leadBytes hd.lead).length +
        (hd.start.version.bytes ++ hd.start.gap.bytes ++ hd.start.code.bytes).length, hd.start.text.bytes⟩ = _
      rw [h.lead, h.version, h.gap, h.code, h.text, leadBytes, List.length_nil, Nat.zero_add]
      rfl
    rw [hmsg, hreason]
  · have hoffset : hd.bodyOffset = q.startBytes.length := congrArg List.length h.startBytes
    rw [hheaders, same_headers h.lines, hoffset]
    rfl

end SameResponse

/-- A head that is not preceded by an empty line. -/
theorem lead_none {hd : Head statusSyntax} {b : List Byte} (h : hd.bytes <+: b) :
    hd.lead = none ↔ ¬ StartsWithEol b := by
  obtain ⟨tl, rfl⟩ := h
  constructor
  · intro hlead
    obtain ⟨c, cs, hver, hc, -⟩ := Word.exists_cons hd.start.version
    have hstart : statusSyntax.bytes hd.start = c :: (cs ++ hd.start.gap.bytes ++ hd.start.code.bytes ++
        hd.start.text.bytes ++ hd.start.eol.bytes) := by
      show hd.start.version.bytes ++ hd.start.gap.bytes ++ hd.start.code.bytes ++ hd.start.text.bytes ++
        hd.start.eol.bytes = _
      rw [hver]
      rfl
    have hbytes : ∃ rest, hd.bytes ++ tl = c :: rest := by
      simp [Head.bytes, hlead, leadBytes, hstart]
    obtain ⟨rest, hrest⟩ := hbytes
    rw [hrest]
    exact not_startsWithEol (versionByte_plain hc).2
  · intro hno
    cases hlead : hd.lead with
    | none => rfl
    | some eol =>
      refine absurd ⟨eol, ?_⟩ hno
      rw [Head.bytes, hlead]
      simp [leadBytes]

/-- **Responses.** Likewise, for buffers that do not begin with an empty line; picohttpparser accepts no others. -/
theorem parseResponse_agrees (simd simd' : Simd) {b : List Byte} (hb : b.length < 2 ^ 31) {m : Msg} {max_headers : Nat}
    (hroom : m.m_headersLength + max_headers = 32) {n : Nat} (hn : 0 < n) :
    ((∃ lastPos m', Entry.response.parseMsg simd b 0 m = .ok ((n, lastPos), m')) ∧ ¬ StartsWithEol b ↔
      ∃ out, phrParseResponse simd' max_headers b 0 = .ok (n, some out) ∧ out.NoBar) ∧
    ∀ lastPos m' out, Entry.response.parseMsg simd b 0 m = .ok ((n, lastPos), m') →
      phrParseResponse simd' max_headers b 0 = .ok (n, some out) →
        m'.method = m.method ∧ m'.uri = m.uri ∧ m'.version = out.minor_version ∧ m'.status = out.status ∧
          m'.statusMsg = (if out.msg.bytes = [] then m.statusMsg else some out.msg) ∧
          m'.headers = m.headers ++ out.headers.map PhrHeader.toHeader := by
  have hhead : ∀ {hd : Head statusSyntax} {q : Response}, SameResponse hd q →
      (m.m_headersLength + hd.lines.length ≤ msgKind.slots ↔ q.headers.lines.length ≤ max_headers) := by
    intro hd q h
    show m.m_headersLength + hd.lines.length ≤ 32 ↔ _
    rw [h.lines_length]
    omega
  have haccepted : ∀ {hd : Head statusSyntax}, hd.bytes <+: b → hd.bytes.length = n → ¬ StartsWithEol b →
      (∀ e ∈ hd.events, e.refused msgKind = false) → m.m_headersLength + hd.lines.length ≤ msgKind.slots →
        ∃ q : Response, SameResponse hd q ∧ q.out.NoBar ∧
          phrParseResponse simd' max_headers b 0 = .ok (n, some q.out) := by
    intro hd hfront hlen hno hall hle
    obtain ⟨d, hver⟩ := Option.isSome_iff_exists.1 (status_accepted.1 hall)
    obtain ⟨q, hsame, hbar⟩ := response_of_head hd ((lead_none hfront).2 hno) hver
    refine ⟨q, hsame, hbar, (phrParseResponse_ok_iff simd' hb).2 ⟨q, ?_, ?_, (hhead hsame).1 hle, rfl⟩⟩
    · rwa [← hsame.bytes]
    · rw [← hsame.bytes, hlen]
  have hsmooth : ∀ {out}, phrParseResponse simd' max_headers b 0 = .ok (n, some out) → ¬ StartsWithEol b := by
    intro out hphr
    obtain ⟨q, ⟨tl, rfl⟩, -, -, -⟩ := (phrParseResponse_ok_iff simd' hb).1 hphr
    exact not_startsWithEol (c := 0x48) (by decide)
  refine ⟨⟨?_, ?_⟩, ?_⟩
  · rintro ⟨hcall, hno⟩
    obtain ⟨hd, hfront, hlen, hall, hle⟩ := (Entry.response.parseMsg_pos_iff simd hb m hn).1 hcall
    obtain ⟨q, -, hbar, hphr⟩ := haccepted hfront hlen hno hall hle
    exact ⟨q.out, hphr, hbar⟩
  · rintro ⟨out, hphr, hbar⟩
    refine ⟨?_, hsmooth hphr⟩
    obtain ⟨q, hfront, hlen, hle, rfl⟩ := (phrParseResponse_ok_iff simd' hb).1 hphr
    obtain ⟨hd, hsame⟩ := head_of_response q hbar
    refine (Entry.response.parseMsg_pos_iff simd hb m hn).2 ⟨hd, ?_, ?_, ?_, (hhead hsame).2 hle⟩
    · show hd.bytes <+: b
      rwa [hsame.bytes]
    · show hd.bytes.length = n
      rw [hsame.bytes]
      omega
    · refine status_accepted.2 (Option.isSome_iff_exists.2 ⟨digit q.version.minor, ?_⟩)
      rw [hsame.version, http1_version]
  · intro lastPos m' out hcall hphr
    obtain ⟨hd, hfront, hlen, hall, hle⟩ := (Entry.response.parseMsg_pos_iff simd hb m hn).1 ⟨lastPos, m', hcall⟩
    obtain ⟨q, hsame, -, hphr'⟩ := haccepted hfront hlen (hsmooth hphr) hall hle
    obtain rfl : out = q.out := by
      rw [hphr'] at hphr
      exact (Option.some.inj (Prod.mk.inj (Except.ok.inj hphr)).2).symm
    have hstored := Entry.response.parseMsg_head simd hb m hd hfront hall
    rw [if_pos hle] at hstored
    obtain ⟨m₁, hm₁, htold⟩ := hstored
    rw [hcall] at hm₁
    obtain rfl : m' = m₁ := (Prod.mk.inj (Except.ok.inj hm₁)).2
    obtain ⟨hmethod, huri, hstatus, hmsg, hheaders⟩ := hsame.told htold
    refine ⟨hmethod, huri, ?_, hstatus, hmsg, hheaders⟩
    have hversion := (status_told htold).2.2.1
    rw [hversion]
    show (http1 hd.start.version.bytes).getD (err .invalidVersion) = _
    rw [hsame.version, http1_version]
    rfl

/-- A response with a reason phrase. -/
def reasonResponse : List Byte := ascii "HTTP/1.0 200 OK\n\n"

/-- What picohttpparser returns for it. -/
def reasonOut : PhrResponse where
  minor_version := 0
  status := 200
  msg := ⟨13, ascii "OK"⟩
  headers := []

theorem parseResponse_agrees_reason :
    ∃ lastPos m', Entry.response.parseMsg .unrolled reasonResponse 0 (.init msgKind) = .ok (((17 : Nat), lastPos), m') ∧
      phrParseResponse .unrolled 32 reasonResponse 0 = .ok (((17 : Nat) : Int), some reasonOut) ∧
      m'.version = (0 : Int) ∧ m'.status = 200 ∧ m'.statusMsg = some ⟨13, ascii "OK"⟩ ∧ m'.headers = [] := by
  have hphr : phrParseResponse .unrolled 32 reasonResponse 0 = .ok (((17 : Nat) : Int), some reasonOut) := by
    decide +kernel
  have hagrees := @parseResponse_agrees .unrolled .unrolled reasonResponse (by decide) (.init msgKind) 32 rfl 17
    (by decide)
  obtain ⟨⟨lastPos, m', hcall⟩, -⟩ := hagrees.1.2 ⟨reasonOut, hphr, fun _ hx => absurd hx List.not_mem_nil⟩
  obtain ⟨-, -, hversion, hstatus, hmsg, hheaders⟩ := hagrees.2 lastPos m' reasonOut hcall hphr
  exact ⟨lastPos, m', hcall, hphr, hversion, hstatus, hmsg, hheaders⟩

end Httparsed.Pico
