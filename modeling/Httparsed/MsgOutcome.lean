import Httparsed.Msg
import Httparsed.ResumeStart

/-!
# What a call on a `Msg` comes to

Three ways, told apart by what an application that accepts everything would be told (`msg_outcome`): a version
the object does not accept ends it before any header is stored; too many headers are a trap, even if the head
is not complete yet; in any other case the result is that of the accepting application and the message holds
all it was told. For a buffer that begins with a head the three ways can be read off the head
(`parseRequest_msg`, `parseResponse_msg`).
-/

namespace Httparsed

open Transducer Grammar

/-! ## The version comes before the headers -/

/-- No header callback comes before one that is none. -/
theorem no_header_before {l : StartLine} (g : StartGrammar l) {b : List Byte} {lastPos : Nat}
    (hpos : lastPos ≤ b.length) {pre post : List (Nat × Event Slice)} {n : Nat} {e : Event Slice}
    (hcalls : (answer l b lastPos).calls = pre ++ (n, e) :: post) (he : e.isHeader = false) :
    ∀ x ∈ pre, x.2.isHeader = false := by
  rcases headerPart_or_none g hpos with ⟨q, ls, hpart⟩ | ⟨-, -, hno⟩
  · obtain ⟨start, hstart, hno⟩ := hpart.calls
    rw [hcalls] at hstart
    rcases List.append_eq_append_iff.1 hstart with ⟨mid, rfl, -⟩ | ⟨mid, rfl, hmid⟩
    · intro x hx
      exact (hno x (List.mem_append_left _ hx)).1
    · -- the header calls would begin before it
      exfalso
      obtain ⟨ls₁, line, ls₂, -, -, hx⟩ := mem_headerCalls hmid
      obtain ⟨-, rfl⟩ := Prod.mk.inj hx
      cases he
  · intro x hx
    exact hno x (by rw [hcalls]; exact List.mem_append_left _ hx)

theorem answer_mark_lineStart {l : StartLine} (g : StartGrammar l) {b : List Byte} {lastPos : Nat}
    (hpos : lastPos ≤ b.length) {x : Nat × Event Slice} (hx : x ∈ (answer l b lastPos).calls)
    (hno : x.2.isHeader = false) : x.1 ≤ b.length ∧ LineStart b x.1 := by
  rcases headerPart_or_none g hpos with ⟨q, ls, hpart⟩ | ⟨rfl, hq, -⟩
  · obtain ⟨start, hstart, hmarks⟩ := hpart.calls
    rw [hstart] at hx
    rcases List.mem_append.1 hx with hx | hx
    · obtain ⟨-, hle, -, hline⟩ := hmarks x hx
      exact ⟨hle.trans hpart.inside, hline⟩
    · obtain ⟨pre, post, hsplit⟩ := List.append_of_mem hx
      obtain ⟨ls₁, line, ls₂, -, -, rfl⟩ := mem_headerCalls hsplit
      cases hno
  · obtain ⟨-, hle, hline, hmarks⟩ := no_headerPart hq
    rw [(hmarks x hx).2]
    exact ⟨hle, hline⟩

theorem headersOf_nil {es : List (Event Slice)} (h : ∀ e ∈ es, e.isHeader = false) : Message.headersOf es = [] :=
  List.filterMap_eq_nil_iff.2 fun e he => Event.header?_none (h e he)

/-! ## The three ways -/

section

variable {k : MsgKind} {calls : List (Nat × Event Slice)}

/-- Callbacks that are not refused: all stored, or a trap. -/
theorem deliver_accepted (h : ∀ x ∈ calls, x.2.refused k = false) (m : Message k) :
    if m.m_headersLength + (Message.headersOf (calls.map Prod.snd)).length ≤ k.slots then
      ∃ m', Veto.deliver Message.listen calls m = .ok (.ok ⟨⟩, m') ∧ m.Told (calls.map Prod.snd) m'
    else Veto.deliver Message.listen calls m = .error .range := by
  have hfold := Veto.deliver_fold (g := Message.listen) (f := fun m e => (m.receive e).map Prod.snd)
    (fun x hx s => Message.listen_accepted (h x hx) s) m
  have hhear := m.hear_told (calls.map Prod.snd)
  rw [Message.hear] at hhear
  split_ifs at hhear ⊢ with hle
  · obtain ⟨m', hm', htold⟩ := hhear
    refine ⟨m', ?_, htold⟩
    rw [hfold, hm']
    rfl
  · rw [hfold, hhear]
    rfl

/-- The first version that is refused ends the call, the callbacks before it being stored. -/
theorem deliver_refused {pre post : List (Nat × Event Slice)} {n : Nat} {e : Event Slice}
    (hcalls : calls = pre ++ (n, e) :: post) (hpre : ∀ x ∈ pre, x.2.refused k = false ∧ x.2.isHeader = false)
    (he : e.refused k = true) (m : Message k) :
    ∃ m', Veto.deliver Message.listen calls m = .ok (.error (n, err .invalidVersion), m') ∧
      m.Told (pre.map Prod.snd ++ [e]) m' := by
  have hnone : Message.headersOf (pre.map Prod.snd) = [] := by
    apply headersOf_nil
    intro e' he'
    obtain ⟨x, hx, rfl⟩ := List.mem_map.1 he'
    exact (hpre x hx).2
  have hdeliver := deliver_accepted (fun x hx => (hpre x hx).1) m
  rw [hnone, List.length_nil, Nat.add_zero, if_pos m.inRange] at hdeliver
  obtain ⟨m₁, hm₁, htold⟩ := hdeliver
  obtain ⟨m', hm', htold'⟩ := Message.listen_refused he m₁
  refine ⟨m', ?_, htold.trans htold'⟩
  rw [hcalls, Veto.deliver_append, hm₁]
  show Veto.deliver Message.listen ((n, e) :: post) m₁ = _
  rw [Veto.deliver_cons, hm']

end

section

variable {k : MsgKind} (entry : Entry) (simd : Simd) {b : List Byte} {lastPos : Nat} (m : Message k)

/-- A call in which no version is refused. -/
theorem Entry.parseMsg_accepted (hb : b.length < 2 ^ 31) (hpos : lastPos ≤ b.length)
    (h : ∀ e ∈ (answer entry.line b lastPos).events, e.refused k = false) :
    if m.m_headersLength + (Message.headersOf (answer entry.line b lastPos).events).length ≤ k.slots then
      ∃ m', entry.parseMsg simd b lastPos m =
          .ok (((answer entry.line b lastPos).code, (answer entry.line b lastPos).lastPos), m') ∧
        m.Told (answer entry.line b lastPos).events m'
    else entry.parseMsg simd b lastPos m = .error .range := by
  have hdeliver := deliver_accepted (fun x hx => h x.2 (List.mem_map_of_mem hx)) m
  rw [entry.parseMsg_eq simd hb hpos]
  unfold Answer.events
  split_ifs at hdeliver ⊢ with hle
  · obtain ⟨m', hm', htold⟩ := hdeliver
    refine ⟨m', ?_, htold⟩
    rw [hm']
    rfl
  · rw [hdeliver]
    rfl

/-- A call in which a version is refused. -/
theorem Entry.parseMsg_refused (hb : b.length < 2 ^ 31) (hpos : lastPos ≤ b.length)
    {pre post : List (Event Slice)} {e : Event Slice}
    (hevents : (answer entry.line b lastPos).events = pre ++ e :: post) (hpre : ∀ x ∈ pre, x.refused k = false)
    (he : e.refused k = true) :
    ∃ n m', entry.parseMsg simd b lastPos m = .ok ((err .invalidVersion, n), m') ∧ m.Told (pre ++ [e]) m' ∧
      (∀ x ∈ pre, x.isHeader = false) ∧ n ≤ b.length ∧ LineStart b n := by
  obtain ⟨pre', tail, hcalls, rfl, htail⟩ := List.map_eq_append_iff.1 hevents
  obtain ⟨⟨n, e'⟩, post', rfl, rfl, rfl⟩ := List.map_eq_cons_iff.1 htail
  have hno := Message.not_header_of_refused he
  have hbefore := no_header_before entry.grammar hpos hcalls hno
  obtain ⟨m', hm', htold⟩ := deliver_refused hcalls
    (fun x hx => ⟨hpre x.2 (List.mem_map_of_mem hx), hbefore x hx⟩) he m
  have hmark := answer_mark_lineStart entry.grammar hpos (x := (n, e')) (by rw [hcalls]; simp) hno
  refine ⟨n, m', ?_, htold, ?_, hmark⟩
  · rw [entry.parseMsg_eq simd hb hpos, hm']
    rfl
  · intro x hx
    obtain ⟨y, hy, rfl⟩ := List.mem_map.1 hx
    exact hbefore y hy

end

/-- What an application that accepts everything is told. -/
def Entry.told (entry : Entry) (simd : Simd) (b : List Byte) (lastPos : Nat) : List (Event Slice) :=
  (entry.observe simd Handler.recorder b lastPos ()).calls

theorem recorder_hears (es : List (Event Slice)) : Handler.recorder.hears es = es :=
  List.filter_eq_self.2 fun _ _ => rfl

theorem Entry.told_eq (entry : Entry) (simd : Simd) {b : List Byte} (hb : b.length < 2 ^ 31) {lastPos : Nat}
    (hpos : lastPos ≤ b.length) : entry.told simd b lastPos = (answer entry.line b lastPos).events := by
  rw [told, (entry.observe_accepting simd Handler.recorder_neverRejects hb hpos ()).2, recorder_hears]

/-- **What a call on a `Msg` comes to**, measured by what an application that accepts everything is told: the first
version that is not accepted ends it with `invalidVersion`, no header having been stored; headers that do
not fit in the slots left are a trap; otherwise code and `lastPos` are as for that application, and the
message holds everything it was told. -/
theorem msg_outcome {k : MsgKind} (entry : Entry) (simd : Simd) {b : List Byte} (hb : b.length < 2 ^ 31)
    {lastPos : Nat} (hpos : lastPos ≤ b.length) (m : Message k) :
    (∀ pre ver post, entry.told simd b lastPos = pre ++ .onVersion ver :: post → k.accepts ver.bytes = false →
      (∀ e ∈ pre, e.refused k = false) →
        ∃ n m', entry.parseMsg simd b lastPos m = .ok ((err .invalidVersion, n), m') ∧
          m.Told (pre ++ [.onVersion ver]) m' ∧ m'.headers = m.headers ∧ n ≤ b.length ∧ LineStart b n) ∧
    ((∀ e ∈ entry.told simd b lastPos, e.refused k = false) →
      k.slots < m.m_headersLength + (Message.headersOf (entry.told simd b lastPos)).length →
        entry.parseMsg simd b lastPos m = .error .range) ∧
    ((∀ e ∈ entry.told simd b lastPos, e.refused k = false) →
      m.m_headersLength + (Message.headersOf (entry.told simd b lastPos)).length ≤ k.slots →
        ∃ code n m', (entry.observe simd Handler.recorder b lastPos ()).result = .ok (code, n) ∧
          entry.parseMsg simd b lastPos m = .ok ((code, n), m') ∧ m.Told (entry.told simd b lastPos) m') := by
  have hresult := (entry.observe_accepting simd Handler.recorder_neverRejects hb hpos ()).1
  rw [entry.told_eq simd hb hpos]
  refine ⟨?_, ?_, ?_⟩
  · intro pre ver post hevents hver hpre
    have hrefused : (Event.onVersion ver).refused k = true := by simp [Event.refused, hver]
    obtain ⟨n, m', hm', htold, hno, hmark⟩ := entry.parseMsg_refused simd m hb hpos hevents hpre hrefused
    refine ⟨n, m', hm', htold, ?_, hmark⟩
    have hnone : Message.headersOf (pre ++ [.onVersion ver]) = [] := by
      apply headersOf_nil
      intro e he
      rcases List.mem_append.1 he with he | he
      · exact hno e he
      · rw [List.mem_singleton.1 he]
        rfl
    rw [htold.headers]
    exact (congrArg (m.headers ++ ·) hnone).trans (List.append_nil _)
  · intro hall hlen
    have hcall := entry.parseMsg_accepted simd m hb hpos hall
    rwa [if_neg (Nat.not_le.2 hlen)] at hcall
  · intro hall hlen
    have hcall := entry.parseMsg_accepted simd m hb hpos hall
    rw [if_pos hlen] at hcall
    obtain ⟨m', hm', htold⟩ := hcall
    exact ⟨_, _, m', hresult, hm', htold⟩

/-- A version that is refused before its line is complete. -/
theorem msg_outcome_http2 :
    ∃ n m', Entry.request.parseMsg .unrolled (ascii "GET / HTTP/2.0\n") 0 (.init msgKind) =
        .ok ((err .invalidVersion, n), m') ∧
      m'.headers = (Message.init msgKind).headers := by
  have htold : Entry.request.told .unrolled (ascii "GET / HTTP/2.0\n") 0 =
      [.onMethod ⟨0, ascii "GET"⟩, .onUri ⟨4, ascii "/"⟩] ++ .onVersion ⟨6, ascii "HTTP/2.0"⟩ :: [] := by
    decide +kernel
  obtain ⟨n, m', hm', -, hheaders, -⟩ := (msg_outcome .request .unrolled (b := ascii "GET / HTTP/2.0\n") (by decide)
    (Nat.zero_le _) (.init msgKind)).1 _ _ _ htold (by decide) (by simp [Event.refused])
  exact ⟨n, m', hm', hheaders⟩

/-! ## Heads -/

theorem headersOf_append (a b : List (Event Slice)) :
    Message.headersOf (a ++ b) = Message.headersOf a ++ Message.headersOf b :=
  List.filterMap_append ..

theorem headersOf_lines_length (p : Nat) (ls : List Line) :
    (Message.headersOf (linesEvents p ls)).length = ls.length := by
  induction ls generalizing p with
  | nil => rfl
  | cons l ls ih => exact congrArg (· + 1) (ih _)

theorem lines_accepted {k : MsgKind} {p : Nat} {ls : List Line} : ∀ e ∈ linesEvents p ls, e.refused k = false := by
  intro e he
  have hheader := linesEvents_isHeader e he
  cases e with
  | onHeader name value => rfl
  | _ => cases hheader

/-- What is no header is told by the start line of a head. -/
theorem lastTold_head {α : Type} {f : Event Slice → Option α} (hf : ∀ name value, f (.onHeader name value) = none)
    {y : StartSyntax} (hd : Head y) (old : α) :
    lastTold f hd.events old = lastTold f (y.events (leadBytes hd.lead).length hd.start) old := by
  have hlines : ∀ e ∈ linesEvents hd.bodyOffset hd.lines, f e = none := by
    intro e he
    have hheader := linesEvents_isHeader e he
    cases e with
    | onHeader name value => exact hf name value
    | _ => cases hheader
  rw [Head.events, lastTold_append, lastTold_none f hlines]

section

variable {l : StartLine} {g : StartGrammar l}

theorem headersOf_head (hd : Head g.toStartSyntax) :
    Message.headersOf hd.events = Message.headersOf (linesEvents hd.bodyOffset hd.lines) := by
  rw [Head.events, headersOf_append, headersOf_nil (g.notHeader _ _), List.nil_append]

theorem headersOf_head_length (hd : Head g.toStartSyntax) : (Message.headersOf hd.events).length = hd.lines.length := by
  rw [headersOf_head, headersOf_lines_length]

end

/-- **A head on a `Msg`**: what it tells of is stored, if its version is not refused and the slots do. -/
theorem Entry.parseMsg_head {k : MsgKind} (entry : Entry) (simd : Simd) {b : List Byte} (hb : b.length < 2 ^ 31)
    (m : Message k) (hd : Head entry.grammar.toStartSyntax) (hfront : hd.bytes <+: b)
    (h : ∀ e ∈ hd.events, e.refused k = false) :
    if m.m_headersLength + hd.lines.length ≤ k.slots then
      ∃ m', entry.parseMsg simd b 0 m = .ok ((hd.bytes.length, hd.bytes.length), m') ∧ m.Told hd.events m'
    else entry.parseMsg simd b 0 m = .error .range := by
  obtain ⟨rest, rfl⟩ := hfront
  obtain ⟨hcode, hlast, hevents⟩ := answer_head entry.grammar hd rest
  have hcall := entry.parseMsg_accepted simd m hb (Nat.zero_le _) (by rwa [hevents])
  rwa [hcode, hlast, hevents, headersOf_head_length] at hcall

/-- A head whose version is refused leaves the headers as they were. -/
theorem Entry.parseMsg_head_refused {k : MsgKind} (entry : Entry) (simd : Simd) {b : List Byte}
    (hb : b.length < 2 ^ 31) (m : Message k) (hd : Head entry.grammar.toStartSyntax) (hfront : hd.bytes <+: b)
    (h : ¬ ∀ e ∈ hd.events, e.refused k = false) :
    ∃ lastPos m', entry.parseMsg simd b 0 m = .ok ((err .invalidVersion, lastPos), m') ∧ m'.headers = m.headers := by
  obtain ⟨rest, rfl⟩ := hfront
  have hevents := (answer_head entry.grammar hd rest).2.2
  rcases all_or_split (fun e => !e.refused k) hd.events with hall | ⟨pre, e, post, hsplit, hpre, he⟩
  · exact absurd (fun e he => by simpa using hall e he) h
  · have hrefused : e.refused k = true := by simpa using he
    obtain ⟨n, m', hm', htold, hno, -⟩ := entry.parseMsg_refused simd m hb (Nat.zero_le _) (hevents.trans hsplit)
      (fun x hx => by simpa using hpre x hx) hrefused
    refine ⟨n, m', hm', ?_⟩
    have hnone : Message.headersOf (pre ++ [e]) = [] := by
      apply headersOf_nil
      intro x hx
      rcases List.mem_append.1 hx with hx | hx
      · exact hno x hx
      · rw [List.mem_singleton.1 hx]
        exact Message.not_header_of_refused hrefused
    rw [htold.headers]
    exact (congrArg (m.headers ++ ·) hnone).trans (List.append_nil _)

/-- **A positive result** is the length of such a head. -/
theorem Entry.parseMsg_pos_iff {k : MsgKind} (entry : Entry) (simd : Simd) {b : List Byte} (hb : b.length < 2 ^ 31)
    (m : Message k) {n : Nat} (hn : 0 < n) :
    (∃ lastPos m', entry.parseMsg simd b 0 m = .ok ((n, lastPos), m')) ↔
      ∃ hd : Head entry.grammar.toStartSyntax, hd.bytes <+: b ∧ hd.bytes.length = n ∧
        (∀ e ∈ hd.events, e.refused k = false) ∧ m.m_headersLength + hd.lines.length ≤ k.slots := by
  constructor
  · rintro ⟨lastPos, m', hcall⟩
    rcases all_or_split (fun e => !e.refused k) (answer entry.line b 0).events
      with hall | ⟨pre, e, post, hsplit, hpre, he⟩
    · have haccepted := entry.parseMsg_accepted simd m hb (Nat.zero_le _) fun e he => by simpa using hall e he
      split_ifs at haccepted with hle
      · obtain ⟨m₁, hm₁, -⟩ := haccepted
        rw [hcall] at hm₁
        have hcode : (answer entry.line b 0).code = n := (Prod.mk.inj (Prod.mk.inj (Except.ok.inj hm₁)).1).1.symm
        obtain ⟨hd, hfront, hlen, hevents⟩ := (answer_iff_head entry.grammar b hn _).1 ⟨hcode, rfl⟩
        rw [hevents] at hall hle
        rw [headersOf_head_length] at hle
        exact ⟨hd, hfront, hlen, fun e he => by simpa using hall e he, hle⟩
      · rw [hcall] at haccepted
        cases haccepted
    · obtain ⟨i, m₁, hm₁, -⟩ := entry.parseMsg_refused simd m hb (Nat.zero_le _) hsplit
        (fun x hx => by simpa using hpre x hx) (by simpa using he)
      rw [hcall] at hm₁
      have hcode : (n : Int) = err .invalidVersion := (Prod.mk.inj (Prod.mk.inj (Except.ok.inj hm₁)).1).1
      have := err_neg .invalidVersion
      omega
  · rintro ⟨hd, hfront, rfl, hall, hle⟩
    have hcall := entry.parseMsg_head simd hb m hd hfront hall
    rw [if_pos hle] at hcall
    obtain ⟨m', hm', -⟩ := hcall
    exact ⟨_, m', hm'⟩

/-! ## Requests -/

theorem request_accepted {k : MsgKind} {hd : Head requestSyntax} :
    (∀ e ∈ hd.events, e.refused k = false) ↔ k.accepts hd.start.version.bytes = true := by
  constructor
  · intro h
    have hver := h (.onVersion ⟨(leadBytes hd.lead).length + hd.start.versionOffset, hd.start.version.bytes⟩)
      (List.mem_append_left _ (by simp [requestSyntax, RequestLine.events]))
    simpa [Event.refused] using hver
  · intro h e he
    rcases List.mem_append.1 he with he | he
    · simp only [requestSyntax, RequestLine.events, List.mem_cons, List.not_mem_nil, or_false] at he
      rcases he with rfl | rfl | rfl
      · rfl
      · rfl
      · simpa [Event.refused] using h
    · exact lines_accepted e he

/-- What is in a message that has been told of a request head. -/
theorem request_told {k : MsgKind} {m m' : Message k} {hd : Head requestSyntax} (h : m.Told hd.events m') :
    m'.method = some ⟨(leadBytes hd.lead).length, hd.start.method.bytes⟩ ∧
      m'.uri = some ⟨(leadBytes hd.lead).length + hd.start.uriOffset, hd.start.uri.bytes⟩ ∧
      m'.version = k.stored ⟨(leadBytes hd.lead).length + hd.start.versionOffset, hd.start.version.bytes⟩ ∧
      m'.status = m.status ∧ m'.statusMsg = m.statusMsg ∧
      m'.headers = m.headers ++ Message.headersOf (linesEvents hd.bodyOffset hd.lines) := by
  refine ⟨?_, ?_, ?_, ?_, ?_, ?_⟩
  · rw [h.method, lastTold_head fun _ _ => rfl]
    rfl
  · rw [h.uri, lastTold_head fun _ _ => rfl]
    rfl
  · rw [h.version, lastTold_head fun _ _ => rfl]
    rfl
  · rw [h.status, lastTold_head fun _ _ => rfl]
    rfl
  · rw [h.statusMsg, lastTold_head fun _ _ => rfl]
    rfl
  · rw [h.headers]
    exact congrArg (m.headers ++ ·) (headersOf_head (g := requestGrammar) hd)

/-- **`parseRequest` on a `Msg`.** It returns a length exactly for a buffer that begins with a head whose version is
accepted and whose lines fit in the slots left, and then the message holds what is written there; a head of
another version answers `invalidVersion` and stores no header, one with more lines is a trap. -/
theorem parseRequest_msg {k : MsgKind} (simd : Simd) {b : List Byte} (hb : b.length < 2 ^ 31) (m : Message k) :
    (∀ n : Nat, 0 < n →
      ((∃ lastPos m', Entry.request.parseMsg simd b 0 m = .ok ((n, lastPos), m')) ↔
        ∃ hd : Head requestSyntax, hd.bytes <+: b ∧ hd.bytes.length = n ∧ k.accepts hd.start.version.bytes = true ∧
          m.m_headersLength + hd.lines.length ≤ k.slots)) ∧
    ∀ hd : Head requestSyntax, hd.bytes <+: b →
      (k.accepts hd.start.version.bytes = false →
        ∃ lastPos m', Entry.request.parseMsg simd b 0 m = .ok ((err .invalidVersion, lastPos), m') ∧
          m'.headers = m.headers) ∧
      (k.accepts hd.start.version.bytes = true → k.slots < m.m_headersLength + hd.lines.length →
        Entry.request.parseMsg simd b 0 m = .error .range) ∧
      (k.accepts hd.start.version.bytes = true → m.m_headersLength + hd.lines.length ≤ k.slots →
        ∃ m', Entry.request.parseMsg simd b 0 m = .ok ((hd.bytes.length, hd.bytes.length), m') ∧
          m'.method = some ⟨(leadBytes hd.lead).length, hd.start.method.bytes⟩ ∧
          m'.uri = some ⟨(leadBytes hd.lead).length + hd.start.uriOffset, hd.start.uri.bytes⟩ ∧
          m'.version = k.stored ⟨(leadBytes hd.lead).length + hd.start.versionOffset, hd.start.version.bytes⟩ ∧
          m'.status = m.status ∧ m'.statusMsg = m.statusMsg ∧
          m'.headers = m.headers ++ Message.headersOf (linesEvents hd.bodyOffset hd.lines)) := by
  refine ⟨?_, ?_⟩
  · intro n hn
    refine (Entry.request.parseMsg_pos_iff simd hb m hn).trans (exists_congr fun hd => ?_)
    exact and_congr_right' (and_congr_right' (and_congr_left' request_accepted))
  · intro hd hfront
    refine ⟨?_, ?_, ?_⟩
    · intro hver
      exact Entry.request.parseMsg_head_refused simd hb m hd hfront fun h => by
        rw [request_accepted.1 h] at hver
        cases hver
    · intro hver hlen
      have hcall := Entry.request.parseMsg_head simd hb m hd hfront (request_accepted.2 hver)
      rwa [if_neg (Nat.not_le.2 hlen)] at hcall
    · intro hver hlen
      have hcall := Entry.request.parseMsg_head simd hb m hd hfront
        (request_accepted.2 hver)
      rw [if_pos hlen] at hcall
      obtain ⟨m', hm', htold⟩ := hcall
      exact ⟨m', hm', request_told htold⟩

/-- A request with a header and its continuation. -/
def continuedRequest : List Byte := ascii "GET / HTTP/1.1\na: b\n c\n\n"

def http11 : Word versionByte := word "HTTP/1.1" (by decide) (by decide)

/-- The head it is. -/
def continuedHead : Head requestSyntax where
  lead := none
  start := { getLine with version := http11, eol := .lf }
  lines := [⟨.named (word "a" (by decide) (by decide)) ⟨ascii " b", List.all_eq_true.1 (by decide)⟩, .lf⟩,
    ⟨.continued (word " c" (by decide) (by decide)) fun _ h => Option.some.inj h ▸ rfl, .lf⟩]
  opens := fun _ h => Option.some.inj h ▸ rfl
  eol := .lf

/-- It is read to its end, and both lines are in the message. -/
theorem parseRequest_msg_continued :
    (∃ lastPos m', Entry.request.parseMsg .unrolled continuedRequest 0 (.init msgKind) =
        .ok (((24 : Nat), lastPos), m')) ∧
      ∃ m', Entry.request.parseMsg .unrolled continuedRequest 0 (.init msgKind) = .ok (((24 : Nat), 24), m') ∧
        m'.method = some ⟨0, ascii "GET"⟩ ∧ m'.uri = some ⟨4, ascii "/"⟩ ∧
        m'.version = (1 : Int) ∧ m'.status = 0 ∧ m'.statusMsg = none ∧
        m'.headers = [⟨some ⟨15, ascii "a"⟩, some ⟨18, ascii "b"⟩⟩, ⟨none, some ⟨20, ascii " c"⟩⟩] :=
  have hmsg := parseRequest_msg .unrolled (b := continuedRequest) (by decide) (.init msgKind)
  have hfront : continuedHead.bytes <+: continuedRequest := List.prefix_refl _
  ⟨(hmsg.1 24 (by decide)).2 ⟨continuedHead, hfront, rfl, rfl, by decide⟩,
    (hmsg.2 continuedHead hfront).2.2 rfl (by decide)⟩

/-! ## Responses -/

theorem status_accepted {k : MsgKind} {hd : Head statusSyntax} :
    (∀ e ∈ hd.events, e.refused k = false) ↔ k.accepts hd.start.version.bytes = true := by
  constructor
  · intro h
    have hver := h (.onVersion ⟨(leadBytes hd.lead).length, hd.start.version.bytes⟩)
      (List.mem_append_left _ (by simp [statusSyntax, StatusLine.events]))
    simpa [Event.refused] using hver
  · intro h e he
    rcases List.mem_append.1 he with he | he
    · rcases List.mem_append.1 he with he | he
      · simp only [List.mem_cons, List.not_mem_nil, or_false] at he
        rcases he with rfl | rfl
        · simpa [Event.refused] using h
        · rfl
      · split_ifs at he
        · cases he
        · rw [List.mem_singleton.1 he]
          rfl
    · exact lines_accepted e he

/-- What is in a message that has been told of a response head. -/
theorem status_told {k : MsgKind} {m m' : Message k} {hd : Head statusSyntax} (h : m.Told hd.events m') :
    m'.method = m.method ∧ m'.uri = m.uri ∧ m'.version = k.stored ⟨(leadBytes hd.lead).length, hd.start.version.bytes⟩ ∧
      m'.status = hd.start.code.value ∧
      m'.statusMsg = (if (hd.start.reason (leadBytes hd.lead).length).bytes = [] then m.statusMsg
        else some (hd.start.reason (leadBytes hd.lead).length)) ∧
      m'.headers = m.headers ++ Message.headersOf (linesEvents hd.bodyOffset hd.lines) := by
  have hstart : ∀ {α : Type} {f : Event Slice → Option α}
      (hf : ∀ name value, f (.onHeader name value) = none) (old : α),
      lastTold f hd.events old =
        lastTold f (if (hd.start.reason (leadBytes hd.lead).length).bytes = [] then []
          else [.onStatusMsg (hd.start.reason (leadBytes hd.lead).length)])
          (lastTold f [.onVersion ⟨(leadBytes hd.lead).length, hd.start.version.bytes⟩,
            .onStatus hd.start.code.value] old) := by
    intro α f hf old
    rw [lastTold_head hf, ← lastTold_append]
    rfl
  refine ⟨?_, ?_, ?_, ?_, ?_, ?_⟩
  · rw [h.method, hstart fun _ _ => rfl]
    split_ifs <;> rfl
  · rw [h.uri, hstart fun _ _ => rfl]
    split_ifs <;> rfl
  · rw [h.version, hstart fun _ _ => rfl]
    split_ifs <;> rfl
  · rw [h.status, hstart fun _ _ => rfl]
    split_ifs <;> rfl
  · rw [h.statusMsg, hstart fun _ _ => rfl]
    split_ifs <;> rfl
  · rw [h.headers]
    exact congrArg (m.headers ++ ·) (headersOf_head (g := statusGrammar) hd)

/-- **`parseResponse` on a `Msg`**, likewise. A response without a reason phrase leaves `statusMsg` as it was. -/
theorem parseResponse_msg {k : MsgKind} (simd : Simd) {b : List Byte} (hb : b.length < 2 ^ 31) (m : Message k) :
    (∀ n : Nat, 0 < n →
      ((∃ lastPos m', Entry.response.parseMsg simd b 0 m = .ok ((n, lastPos), m')) ↔
        ∃ hd : Head statusSyntax, hd.bytes <+: b ∧ hd.bytes.length = n ∧ k.accepts hd.start.version.bytes = true ∧
          m.m_headersLength + hd.lines.length ≤ k.slots)) ∧
    ∀ hd : Head statusSyntax, hd.bytes <+: b →
      (k.accepts hd.start.version.bytes = false →
        ∃ lastPos m', Entry.response.parseMsg simd b 0 m = .ok ((err .invalidVersion, lastPos), m') ∧
          m'.headers = m.headers) ∧
      (k.accepts hd.start.version.bytes = true → k.slots < m.m_headersLength + hd.lines.length →
        Entry.response.parseMsg simd b 0 m = .error .range) ∧
      (k.accepts hd.start.version.bytes = true → m.m_headersLength + hd.lines.length ≤ k.slots →
        ∃ m', Entry.response.parseMsg simd b 0 m = .ok ((hd.bytes.length, hd.bytes.length), m') ∧
          m'.method = m.method ∧ m'.uri = m.uri ∧
          m'.version = k.stored ⟨(leadBytes hd.lead).length, hd.start.version.bytes⟩ ∧
          m'.status = hd.start.code.value ∧
          m'.statusMsg = (if (hd.start.reason (leadBytes hd.lead).length).bytes = [] then m.statusMsg
            else some (hd.start.reason (leadBytes hd.lead).length)) ∧
          m'.headers = m.headers ++ Message.headersOf (linesEvents hd.bodyOffset hd.lines)) := by
  refine ⟨?_, ?_⟩
  · intro n hn
    refine (Entry.response.parseMsg_pos_iff simd hb m hn).trans (exists_congr fun hd => ?_)
    exact and_congr_right' (and_congr_right' (and_congr_left' status_accepted))
  · intro hd hfront
    refine ⟨?_, ?_, ?_⟩
    · intro hver
      exact Entry.response.parseMsg_head_refused simd hb m hd hfront fun h => by
        rw [status_accepted.1 h] at hver
        cases hver
    · intro hver hlen
      have hcall := Entry.response.parseMsg_head simd hb m hd hfront (status_accepted.2 hver)
      rwa [if_neg (Nat.not_le.2 hlen)] at hcall
    · intro hver hlen
      have hcall := Entry.response.parseMsg_head simd hb m hd hfront
        (status_accepted.2 hver)
      rw [if_pos hlen] at hcall
      obtain ⟨m', hm', htold⟩ := hcall
      exact ⟨m', hm', status_told htold⟩

theorem isDigit_two : isDigit 0x32 = true := rfl

theorem isDigit_six : isDigit 0x36 = true := rfl

theorem nil_text : ∀ c ∈ ([] : List Byte), textByte c = true := fun _ h => absurd h List.not_mem_nil

theorem nil_start : ∀ c ∈ ([] : List Byte).head?, c = SP := fun _ h => absurd h (Option.not_mem_none _)

theorem opens_nil : Opens [] := fun _ h => absurd h (Option.not_mem_none _)

/-- A response without a reason phrase. -/
def shortResponse : List Byte := ascii "HTTP/1.1 226\r\n\r\n"

/-- The head it is. -/
def shortHead : Head statusSyntax where
  lead := none
  start :=
    { version := http11
      gap := oneSpace
      code := ⟨0x32, 0x32, 0x36, isDigit_two, isDigit_two, isDigit_six⟩
      text := ⟨[], nil_text⟩
      text_start := nil_start
      eol := .crlf }
  lines := []
  opens := opens_nil
  eol := .crlf

/-- It is read to its end, and `statusMsg` stays as it was. -/
theorem parseResponse_msg_noReason :
    (∃ lastPos m', Entry.response.parseMsg .unrolled shortResponse 0 (.init msgKind) =
        .ok (((16 : Nat), lastPos), m')) ∧
      ∃ m', Entry.response.parseMsg .unrolled shortResponse 0 (.init msgKind) = .ok (((16 : Nat), 16), m') ∧
        m'.method = none ∧ m'.uri = none ∧ m'.version = (1 : Int) ∧ m'.status = 226 ∧ m'.statusMsg = none ∧
        m'.headers = [] :=
  have hmsg := parseResponse_msg .unrolled (b := shortResponse) (by decide) (.init msgKind)
  have hfront : shortHead.bytes <+: shortResponse := List.prefix_refl _
  ⟨(hmsg.1 16 (by decide)).2 ⟨shortHead, hfront, rfl, rfl, by decide⟩,
    (hmsg.2 shortHead hfront).2.2 rfl (by decide)⟩

end Httparsed
