import Httparsed.MsgOutcome

/-!
# Feeding a `Msg` piece by piece (httparsed.d:917, unittest "Incremental")

An application calls again with more data and the same object as long as the answer is `partial`:
`parseMsgRun`. A start line may then be reported several times, which a `Msg` does not mind; every header line
is reported once. So wherever the pieces are cut, the run returns what one call on all the data would, with
the same message and the same trap (`msg_run`), short of the two kinds of cuts `lastPos` does not survive: inside
a start line that has an empty line before it, and in front of a continuation line.
-/

namespace Httparsed

open Transducer Grammar

/-! ## The callbacks of a resumed call -/

/-- A header line ends with its LF. -/
theorem lineStep_header {p : Nat} {phase : HeaderPhase} {c : Byte} {name : Option Slice} {value : Slice}
    (h : (lineStep p phase c).2 = .halt (.ok (.header name value))) : c = LF := by
  have hvalue : ∀ n acc, (stepValue n acc c).2 = .halt (.ok (.header name value)) → c = LF := by
    intro n acc h
    unfold stepValue at h
    split_ifs at h with h1 h2 h3
    · exact h3
    · cases h
  have hname : ∀ acc, (stepName acc c).2 ≠ .halt (.ok (.header name value)) := by
    intro acc
    unfold stepName
    split_ifs <;> simp
  cases phase with
  | lineStart hasHeader =>
    simp only [lineStep] at h
    split_ifs at h
    · cases h
    · exact hvalue _ _ h
    · exact absurd h (hname _)
  | closingCR =>
    simp only [lineStep] at h
    split_ifs at h
    · cases h
    · cases h
  | name acc => exact absurd h (hname acc)
  | blanks n =>
    simp only [lineStep] at h
    split_ifs at h
    exact hvalue _ _ h
  | value n acc => exact hvalue _ _ h
  | valueCR n acc =>
    simp only [lineStep] at h
    split_ifs at h with hc
    · exact hc
    · cases h

/-- Only the LF of a line makes a callback. -/
theorem headerStep_silent (p : Nat) (s : HeaderState) (c : Byte) (hc : c ≠ LF) : (headerStep p s c).1 = [] := by
  rcases hs : headerStep p s c with ⟨o, s' | ⟨e, m⟩ | n⟩
  · rcases headerStep_more hs with ⟨o₁, phase', -, rfl, -⟩ | ⟨o₁, name, value, hl, -, -⟩
    · rfl
    · exact absurd (lineStep_header (congrArg Prod.snd hl)) hc
  · exact (headerStep_error hs).2.1
  · exact (headerStep_ok hs).2.1

/-- What does not continue a line is read alike with and without a line before it. -/
theorem run_lineStart_same (p : Nat) {hasHeader : Bool} {w : List Byte}
    (hw : ¬ (hasHeader = true ∧ StartsContinuation w)) :
    Alike (run headerStep p ⟨p, .lineStart hasHeader⟩ w) (run headerStep p ⟨p, .lineStart false⟩ w) := by
  cases hasHeader with
  | false => exact ⟨rfl, rfl, rfl⟩
  | true =>
    by_cases hblank : ∀ c ∈ w.head?, blank c = false
    · exact run_lineStart_alike p hblank
    · obtain ⟨c, cs, rfl, hc⟩ : ∃ c cs, w = c :: cs ∧ blank c = true := by
        cases w with
        | nil => exact absurd (by simp) hblank
        | cons c cs => exact ⟨c, cs, rfl, by simpa using hblank⟩
      rcases @startsContinuation_or c cs hc with hcont | ⟨raw, d, r, hraw, hsplit, hd, hCR, hLF⟩
      · exact absurd ⟨rfl, hcont⟩ hw
      · rw [hsplit, continuation_refused p raw hraw hd hCR hLF, ← hsplit, run_lineStart_blank p hc]
        exact ⟨rfl, rfl, rfl⟩

section

variable {l : StartLine} (g : StartGrammar l)

/-- The calls on a buffer that begins with a start line and whole header lines. -/
theorem answer_lines_calls (lead : Option Eol) (ph : g.Phrase) {ls : List Line} (hopens : Opens ls) {pre : List Byte}
    (hpre : pre = leadBytes lead ++ g.bytes ph ++ linesBytes ls) :
    ∃ calls, ∀ rest, (answer l (pre ++ rest) 0).calls = calls ++
      (run headerStep pre.length ⟨pre.length, .lineStart (!ls.isEmpty)⟩ rest).1.map fun x => (x.1, x.2.trim) := by
  subst hpre
  refine ⟨((g.events (leadBytes lead).length ph).map (Prod.mk (leadBytes lead).length) ++
    lineCalls (leadBytes lead ++ g.bytes ph).length ls).map fun x => (x.1, x.2.trim), fun rest => ?_⟩
  unfold answer
  rw [read_lines lead ph hopens rest, prepend_fst, List.map_append]
  rfl

theorem answer_resumed_calls {b : List Byte} {p : Nat} (h0 : p ≠ 0) :
    (answer l b p).calls =
      (run headerStep p ⟨p, .lineStart false⟩ (b.drop p)).1.map fun x => (x.1, x.2.trim) := by
  unfold answer
  rw [read_resume h0]
  rfl

/-- The cut is one that `lastPos` survives: `b'` is a longer buffer than `b`. -/
structure CleanCut (y : StartSyntax) (b b' : List Byte) : Prop where
  startLine : (¬ ∃ q, StartLineEnd y b q) → ¬ StartsWithEol b
  continuation : ¬ CutBefore y b b'

variable {g}

/-- **A call resumed behind the start line** makes the callbacks that the call before it has left out. -/
theorem resumed_calls {b x : List Byte} (hstart : ∃ q, StartLineEnd g.toStartSyntax b q)
    (hcode : (answer l b 0).code = err .partialData) (hcut : ¬ CutBefore g.toStartSyntax b (b ++ x)) :
    (answer l (b ++ x) (answer l b 0).lastPos).code = (answer l (b ++ x) 0).code ∧
      (answer l (b ++ x) (answer l b 0).lastPos).lastPos = (answer l (b ++ x) 0).lastPos ∧
      (answer l (b ++ x) 0).calls = (answer l b 0).calls ++ (answer l (b ++ x) (answer l b 0).lastPos).calls := by
  obtain ⟨lead, ph, ls, tail, hopens, rfl, htail, hlast, -⟩ := answer_start_suspended g hstart hcode
  obtain ⟨pre, hpre⟩ : ∃ pre, pre = leadBytes lead ++ g.bytes ph ++ linesBytes ls := ⟨_, rfl⟩
  have h0 := read_start_ne_zero g hpre
  rw [hlast, ← hpre, List.append_assoc]
  rw [← hpre, List.append_assoc, cutBefore_iff g hopens hpre htail] at hcut
  have halike : Alike (run headerStep pre.length ⟨pre.length, .lineStart (!ls.isEmpty)⟩ (tail ++ x))
      (run headerStep pre.length ⟨pre.length, .lineStart false⟩ (tail ++ x)) := by
    apply run_lineStart_same
    rintro ⟨hne, hcont⟩
    refine hcut ⟨?_, hcont⟩
    rintro rfl
    cases hne
  have hquiet : (run headerStep pre.length ⟨pre.length, .lineStart (!ls.isEmpty)⟩ tail).1 = [] :=
    run_silent headerStep_silent (fun c hc h => htail (h ▸ hc)) _ _
  obtain ⟨c1, m1, -, -⟩ := answer_lines g lead ph hopens hpre (tail ++ x) rfl
  obtain ⟨c2, m2, -⟩ := answer_resumed (l := l) (b := pre ++ (tail ++ x)) h0 rfl
  rw [List.drop_left' rfl] at c2 m2
  refine ⟨?_, ?_, ?_⟩
  · rw [c1, c2, halike.2.1]
  · rw [m1, m2, halike.2.2]
  · obtain ⟨calls, hcalls⟩ := answer_lines_calls g lead ph hopens hpre
    rw [hcalls, hcalls, hquiet, answer_resumed_calls h0, List.drop_left' rfl, halike.1, List.map_nil, List.append_nil]

end

/-! ## One resumed call on a `Msg` -/

/-- The callbacks made on a buffer come first on every longer one, marks included. -/
theorem calls_grow (l : StartLine) (b x : List Byte) : (answer l b 0).calls <+: (answer l (b ++ x) 0).calls := by
  have h : (read l b 0).1 <+: (read l (b ++ x) 0).1 := run_fst_prefix 0 _ b x
  exact h.map _

theorem listen_error {k : MsgKind} {e : Event Slice} {m m' : Message k} {r : Int}
    (h : Message.listen e m = .ok (.error r, m')) : r = err .invalidVersion := by
  cases he : e.refused k with
  | false =>
    rw [Message.listen_accepted he] at h
    cases hm : m.receive e with
    | error f =>
      rw [hm] at h
      cases h
    | ok x =>
      rw [hm] at h
      cases h
  | true =>
    obtain ⟨m₁, hm₁, -⟩ := Message.listen_refused he m
    rw [h] at hm₁
    cases hm₁
    rfl

section

variable {k : MsgKind} {entry : Entry} {simd : Simd} {b : List Byte} {lastPos p : Nat} {m m' : Message k}

/-- What a call has done that asks for more. -/
theorem parseMsg_partial (hb : b.length < 2 ^ 31) (hpos : lastPos ≤ b.length)
    (h : entry.parseMsg simd b lastPos m = .ok ((err .partialData, p), m')) :
    (answer entry.line b lastPos).code = err .partialData ∧ (answer entry.line b lastPos).lastPos = p ∧
      Veto.deliver Message.listen (answer entry.line b lastPos).calls m = .ok (.ok ⟨⟩, m') := by
  rw [entry.parseMsg_eq simd hb hpos] at h
  cases hdeliver : Veto.deliver Message.listen (answer entry.line b lastPos).calls m with
  | error f =>
    rw [hdeliver] at h
    cases h
  | ok x =>
    obtain ⟨⟨n, r⟩ | u, m₁⟩ := x
    · obtain ⟨pre, e, post, m₂, -, -, hlisten⟩ := Veto.deliver_split hdeliver
      obtain rfl := listen_error hlisten
      rw [hdeliver] at h
      have hcode : err .invalidVersion = err .partialData := (Prod.mk.inj (Prod.mk.inj (Except.ok.inj h)).1).1
      exact absurd (err_inj.1 hcode) (by decide)
    · rw [hdeliver] at h
      obtain ⟨hres, rfl⟩ := Prod.mk.inj (Except.ok.inj h)
      obtain ⟨hcode, hlast⟩ := Prod.mk.inj hres
      exact ⟨hcode, hlast, rfl⟩

/-- **Any other outcome is final**, a trap included. -/
theorem parseMsg_final {x : List Byte} (hlen : (b ++ x).length < 2 ^ 31)
    (h : ∀ n m', entry.parseMsg simd b 0 m ≠ .ok ((err .partialData, n), m')) :
    entry.parseMsg simd (b ++ x) 0 m = entry.parseMsg simd b 0 m := by
  have hb : b.length < 2 ^ 31 := by
    rw [List.length_append] at hlen
    omega
  rw [entry.parseMsg_eq simd hb (Nat.zero_le _)] at h ⊢
  rw [entry.parseMsg_eq simd hlen (Nat.zero_le _)]
  by_cases hcode : (answer entry.line b 0).code = err .partialData
  · obtain ⟨t, ht⟩ := calls_grow entry.line b x
    rw [← ht, Veto.deliver_append]
    cases hdeliver : Veto.deliver Message.listen (answer entry.line b 0).calls m with
    | error f => rfl
    | ok y =>
      obtain ⟨e | u, m₁⟩ := y
      · rfl
      · exfalso
        apply h (answer entry.line b 0).lastPos m₁
        rw [hdeliver, ← hcode]
        rfl
  · obtain ⟨o, v, rest, hread⟩ := halted_of_code hcode
    rw [answer_append hread x]

/-- Start lines may be reported again: the message stays as it is. -/
theorem deliver_again {calls : List (Nat × Event Slice)} (hno : ∀ x ∈ calls, x.2.isHeader = false)
    (h : Veto.deliver Message.listen calls m = .ok (.ok ⟨⟩, m')) :
    Veto.deliver Message.listen calls m' = .ok (.ok ⟨⟩, m') := by
  have hnone : Message.headersOf (calls.map Prod.snd) = [] := by
    apply headersOf_nil
    intro e he
    obtain ⟨x, hx, rfl⟩ := List.mem_map.1 he
    exact hno x hx
  rcases all_or_split (fun x => !x.2.refused k) calls with hall | ⟨pre, ⟨n, e⟩, post, hsplit, hpre, he⟩
  · have haccepted : ∀ x ∈ calls, x.2.refused k = false := fun x hx => by simpa using hall x hx
    have hfirst := deliver_accepted haccepted m
    have hsecond := deliver_accepted haccepted m'
    rw [hnone, List.length_nil, Nat.add_zero, if_pos m.inRange] at hfirst
    rw [hnone, List.length_nil, Nat.add_zero, if_pos m'.inRange] at hsecond
    obtain ⟨m₁, hm₁, htold⟩ := hfirst
    obtain ⟨m₂, hm₂, htold'⟩ := hsecond
    rw [h] at hm₁
    obtain rfl : m' = m₁ := (Prod.mk.inj (Except.ok.inj hm₁)).2
    rw [hm₂, htold'.unique (htold.again hnone)]
  · obtain ⟨m₁, hm₁, -⟩ := deliver_refused hsplit
      (fun x hx => ⟨by simpa using hpre x hx, hno x (by rw [hsplit]; exact List.mem_append_left _ hx)⟩)
      (by simpa using he) m
    rw [h] at hm₁
    cases hm₁

/-- **One resumed call** on the message a call has left behind does what one call on the message of before would. -/
theorem parseMsg_resumed {x : List Byte} (hlen : (b ++ x).length < 2 ^ 31)
    (hcut : CleanCut entry.grammar.toStartSyntax b (b ++ x))
    (h : entry.parseMsg simd b 0 m = .ok ((err .partialData, p), m')) :
    entry.parseMsg simd (b ++ x) p m' = entry.parseMsg simd (b ++ x) 0 m := by
  have hle : b.length ≤ (b ++ x).length := (List.prefix_append _ _).length_le
  have hb : b.length < 2 ^ 31 := by omega
  obtain ⟨hcode, rfl, hdeliver⟩ := parseMsg_partial hb (Nat.zero_le _) h
  have hpos : (answer entry.line b 0).lastPos ≤ (b ++ x).length :=
    (read_marks entry.grammar b (Nat.zero_le _)).2.trans hle
  rw [entry.parseMsg_eq simd hlen hpos, entry.parseMsg_eq simd hlen (Nat.zero_le _)]
  by_cases hstart : ∃ q, StartLineEnd entry.grammar.toStartSyntax b q
  · obtain ⟨hsame, hmark, hcalls⟩ := resumed_calls hstart hcode hcut.continuation
    rw [hcalls, Veto.deliver_append, hdeliver]
    simp only [Answer.result, hsame, hmark]
  · rw [(lastPos_in_start_line hstart hcode).2 (hcut.startLine hstart)]
    obtain ⟨t, ht⟩ := calls_grow entry.line b x
    have hno : ∀ y ∈ (answer entry.line b 0).calls, y.2.isHeader = false :=
      fun y hy => ((no_headerPart hstart).2.2.2 y hy).1
    rw [← ht, Veto.deliver_append, Veto.deliver_append, hdeliver, deliver_again hno hdeliver]

end

/-! ## Runs -/

/-- Call again with the same object and more data as long as the answer is `partial`. -/
def Entry.parseMsgRun {k : MsgKind} (entry : Entry) (simd : Simd) :
    List (List Byte) → Nat → Message k → Except Fault ((Int × Nat) × Message k)
  | [], lastPos, m => .ok ((err .partialData, lastPos), m)
  | b :: bs, lastPos, m =>
    match entry.parseMsg simd b lastPos m with
    | .error f => .error f
    | .ok ((code, lastPos'), m') =>
      if code = err .partialData then entry.parseMsgRun simd bs lastPos' m' else .ok ((code, lastPos'), m')

section

variable {k : MsgKind} {entry : Entry} {simd : Simd} {b : List Byte} {bs : List (List Byte)} {lastPos n : Nat}
  {m m' : Message k}

theorem parseMsgRun_more (h : entry.parseMsg simd b lastPos m = .ok ((err .partialData, n), m')) :
    entry.parseMsgRun simd (b :: bs) lastPos m = entry.parseMsgRun simd bs n m' := by
  rw [Entry.parseMsgRun, h]
  exact if_pos rfl

theorem parseMsgRun_done (h : ∀ n m', entry.parseMsg simd b lastPos m ≠ .ok ((err .partialData, n), m')) :
    entry.parseMsgRun simd (b :: bs) lastPos m = entry.parseMsg simd b lastPos m := by
  rw [Entry.parseMsgRun]
  split
  · next f hf => rw [hf]
  · next code i m₁ hm₁ =>
    have hcode : code ≠ err .partialData := by
      rintro rfl
      exact h i m₁ hm₁
    rw [if_neg hcode, hm₁]

/-- From a call on that does what the first one would do: by induction on the buffers behind it. -/
theorem parseMsgRun_from (m₀ : Message k) (hbs : Growing (b :: bs))
    (hcuts : (b :: bs).IsChain (CleanCut entry.grammar.toStartSyntax))
    (h : entry.parseMsg simd b lastPos m = entry.parseMsg simd b 0 m₀) :
    entry.parseMsgRun simd (b :: bs) lastPos m =
      entry.parseMsg simd ((b :: bs).getLast (List.cons_ne_nil _ _)) 0 m₀ := by
  induction bs generalizing b lastPos m with
  | nil =>
    by_cases hmore : ∃ n m', entry.parseMsg simd b lastPos m = .ok ((err .partialData, n), m')
    · obtain ⟨n, m', hm'⟩ := hmore
      rw [parseMsgRun_more hm', List.getLast_singleton, ← h, hm']
      rfl
    · rw [parseMsgRun_done fun n m' hm' => hmore ⟨n, m', hm'⟩, List.getLast_singleton, h]
  | cons c bs ih =>
    rw [List.getLast_cons (List.cons_ne_nil _ _)]
    by_cases hmore : ∃ n m', entry.parseMsg simd b lastPos m = .ok ((err .partialData, n), m')
    · obtain ⟨n, m', hm'⟩ := hmore
      obtain ⟨x, rfl⟩ := hbs.next_le c rfl
      rw [parseMsgRun_more hm']
      apply ih hbs.tail (List.isChain_cons_cons.1 hcuts).2
      exact parseMsg_resumed (hbs.short _ (by simp)) (List.isChain_cons_cons.1 hcuts).1 (h ▸ hm')
    · have hlast : b <+: (c :: bs).getLast (List.cons_ne_nil _ _) := hbs.head_le _ (List.getLast_mem _)
      obtain ⟨x, hx⟩ := hlast
      have hshort : (b ++ x).length < 2 ^ 31 := by
        rw [hx]
        exact hbs.short _ (List.mem_cons_of_mem _ (List.getLast_mem _))
      rw [parseMsgRun_done fun n m' hm' => hmore ⟨n, m', hm'⟩, ← hx, h]
      refine (parseMsg_final hshort fun n m' hm' => hmore ⟨n, m', ?_⟩).symm
      rw [h, hm']

end

/-- **Feeding a `Msg` piece by piece.** On buffers that grow, with no cut inside a start line behind an empty line or
in front of a continuation line, the run ends with the code, the `lastPos` and the message of one call on the
last buffer, or in the same trap. -/
theorem msg_run {k : MsgKind} (entry : Entry) (simd : Simd) {b : List Byte} {bs : List (List Byte)}
    (hbs : Growing (b :: bs)) (hcuts : (b :: bs).IsChain (CleanCut entry.grammar.toStartSyntax)) (m : Message k) :
    entry.parseMsgRun simd (b :: bs) 0 m =
      entry.parseMsg simd ((b :: bs).getLast (List.cons_ne_nil _ _)) 0 m :=
  parseMsgRun_from m hbs hcuts rfl

/-- A cut in front of a continuation line is behind the start line. -/
theorem CutBefore.startLineEnd {y : StartSyntax} {b b' : List Byte} (h : CutBefore y b b') :
    ∃ q, StartLineEnd y b q := by
  obtain ⟨pre, tail, rest, ⟨lead, ph, ls, -, -, rfl⟩, rfl, -, -, -⟩ := h
  exact ⟨_, lead, ph, linesBytes ls ++ tail, List.append_assoc _ _ _, rfl⟩

/-- A request line cut inside its version. -/
theorem msg_run_version :
    Entry.request.parseMsgRun .unrolled [ascii "GET / HTT", ascii "GET / HTTP/1.1\r\n\r\n"] 0 (.init msgKind) =
      Entry.request.parseMsg .unrolled (ascii "GET / HTTP/1.1\r\n\r\n") 0 (.init msgKind) := by
  have hno : ¬ ∃ q, StartLineEnd requestSyntax (ascii "GET / HTT") q :=
    no_startLineEnd (g := requestGrammar) (by decide)
  refine msg_run .request .unrolled ⟨by decide, by decide⟩ ?_ (.init msgKind)
  refine List.isChain_pair.2 ⟨fun _ => not_startsWithEol (by decide), fun hcut => hno hcut.startLineEnd⟩

end Httparsed
