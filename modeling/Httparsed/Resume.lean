import Httparsed.Session
import Httparsed.Final

/-!
# Resuming inside the header section (httparsed.d:151, `hasHeader`)

Between two calls only `lastPos` survives, and it stands at the start of a line. What the loop of `parseHeaders`
knows beside it is `hasHeader`: whether a line has been read before, so that a line may continue it. A resumed
call has forgotten that. `resume_once` says what this does to one call, and `resume_in_headers` what it does
to a run: it ends as one call on the whole buffer would, unless the last call starts with a continuation line.
-/

namespace Httparsed

open Transducer Grammar

variable {σ : Type}

/-! ## Reading from the start of a line -/

abbrev HeaderRun := List (Nat × Event Slice) × Outcome HeaderState Byte (Except (ParserError × Nat) Nat)

/-- Two runs that no application can tell apart. -/
def Alike (r r' : HeaderRun) : Prop :=
  r.1 = r'.1 ∧ outcomeCode r.2 = outcomeCode r'.2 ∧ stopMark HeaderState.mark r.2 = stopMark HeaderState.mark r'.2

/-- Any line but a continuation is read alike with and without a line before it. -/
theorem run_lineStart_alike (p : Nat) {w : List Byte} (hw : ∀ c ∈ w.head?, blank c = false) :
    Alike (run headerStep p ⟨p, .lineStart true⟩ w) (run headerStep p ⟨p, .lineStart false⟩ w) := by
  cases w with
  | nil => exact ⟨rfl, rfl, rfl⟩
  | cons c cs =>
    have hc := blank_false_iff.1 (hw c rfl)
    have hstep : headerStep p ⟨p, .lineStart true⟩ c = headerStep p ⟨p, .lineStart false⟩ c := by
      simp only [headerStep, lineStep, hc, and_false]
    rw [run_cons_congr hstep]
    exact ⟨rfl, rfl, rfl⟩

/-- Without a line before it, a line that starts with a SP or HT is refused. -/
theorem run_lineStart_blank (p : Nat) {c : Byte} (hc : blank c = true) (cs : List Byte) :
    run headerStep p ⟨p, .lineStart false⟩ (c :: cs) = ([], .halted (.error (.token, p)) cs) := by
  rcases blank_iff.1 hc with rfl | rfl <;> exact run_halt rfl cs

/-- A continuation with a forbidden byte in it is refused as well. -/
theorem continuation_refused (p : Nat) (raw : Word textByte) (hraw : ∀ c ∈ raw.bytes.head?, blank c = true) {c : Byte}
    (hc : textByte c = false) (hCR : c ≠ CR) (hLF : c ≠ LF) (rest : List Byte) :
    run headerStep p ⟨p, .lineStart true⟩ (raw.bytes ++ c :: rest) = ([], .halted (.error (.token, p)) rest) := by
  have hstep : lineStep (p + raw.bytes.length) (.value none ⟨p, raw.bytes⟩) c = ([], .halt (.error .token)) := by
    simp only [lineStep, stepValue, hc, Bool.false_eq_true, if_neg hCR, if_neg hLF, ↓reduceIte]
  rw [run_headerStep, run_continuation p raw hraw, run_halt hstep]

/-- Any other one is not: there is no error `token` at its start, or it has been reported. -/
theorem continuation_accepted (p : Nat) (raw : Word textByte) (hraw : ∀ c ∈ raw.bytes.head?, blank c = true)
    {post : List Byte} (hpost : ∀ c ∈ post.head?, c = CR ∨ c = LF) :
    outcomeCode (run headerStep p ⟨p, .lineStart true⟩ (raw.bytes ++ post)).2 ≠ err .token ∨
      ∃ e : Event Slice, e.isHeader = true ∧
        (p, e) ∈ (run headerStep p ⟨p, .lineStart true⟩ (raw.bytes ++ post)).1 := by
  have hline : ∀ (eol : Eol) (rest : List Byte), ∃ e : Event Slice, e.isHeader = true ∧
      (p, e) ∈ (run headerStep p ⟨p, .lineStart true⟩ (raw.bytes ++ (eol.bytes ++ rest))).1 := by
    intro eol rest
    have hrun := run_line p ⟨.continued raw hraw, eol⟩ (Or.inl rfl : true = true ∨ _) rest
    simp only [Line.bytes, Content.bytes, List.append_assoc] at hrun
    rw [run_headerStep, hrun]
    exact ⟨_, rfl, List.mem_cons_self ..⟩
  have hCR : ∀ q, lineStep q (.value none ⟨p, raw.bytes⟩) CR = ([], .more (.valueCR none ⟨p, raw.bytes⟩)) :=
    fun _ => rfl
  rcases post with _ | ⟨c, post⟩
  · left
    rw [run_headerStep, run_continuation p raw hraw]
    exact (by decide : err .partialData ≠ err .token)
  · rcases hpost c rfl with rfl | rfl
    · rcases post with _ | ⟨d, post⟩
      · left
        rw [run_headerStep, run_continuation p raw hraw, run_more (hCR _)]
        exact (by decide : err .partialData ≠ err .token)
      · by_cases hd : d = LF
        · subst hd
          exact Or.inr (hline .crlf post)
        · left
          have hstep : ∀ q, lineStep q (.valueCR none ⟨p, raw.bytes⟩) d = ([], .halt (.error .newLine)) := by
            intro q
            simp only [lineStep, if_neg hd]
          rw [run_headerStep, run_continuation p raw hraw, run_more (hCR _), run_halt (hstep _)]
          exact (by decide : err .newLine ≠ err .token)
    · exact Or.inr (hline .lf post)

/-! ## One resumed call -/

/-- A continuation line at the start of `w`, as far as it is there: text that starts with a SP or HT, up to the
end or to a CR or LF. -/
def StartsContinuation (w : List Byte) : Prop :=
  ∃ (raw : Word textByte) (post : List Byte), (∀ c ∈ raw.bytes.head?, blank c = true) ∧ w = raw.bytes ++ post ∧
    ∀ c ∈ post.head?, c = CR ∨ c = LF

/-- What starts with a SP or HT is a continuation, or has a forbidden byte in it. -/
theorem startsContinuation_or {c : Byte} {cs : List Byte} (hc : blank c = true) :
    StartsContinuation (c :: cs) ∨
      ∃ (raw : Word textByte) (d : Byte) (rest : List Byte), (∀ c ∈ raw.bytes.head?, blank c = true) ∧
        c :: cs = raw.bytes ++ d :: rest ∧ textByte d = false ∧ d ≠ CR ∧ d ≠ LF := by
  have htext := textByte_of_blank hc
  have htake : (c :: cs).takeWhile textByte = c :: cs.takeWhile textByte := by rw [List.takeWhile_cons, if_pos htext]
  have hsplit := (List.takeWhile_append_dropWhile (p := textByte) (l := c :: cs)).symm
  rw [htake] at hsplit
  let raw : Word textByte := ⟨c :: cs.takeWhile textByte, List.cons_ne_nil _ _, by
    rw [← htake]
    exact fun d hd => List.mem_takeWhile_imp hd⟩
  have hraw : ∀ d ∈ raw.bytes.head?, blank d = true := by
    intro d hd
    obtain rfl : c = d := by simpa [raw] using hd
    exact hc
  cases hdrop : (c :: cs).dropWhile textByte with
  | nil =>
    rw [hdrop] at hsplit
    exact Or.inl ⟨raw, [], hraw, hsplit, by simp⟩
  | cons d rest =>
    rw [hdrop] at hsplit
    have hne : (c :: cs).dropWhile textByte ≠ [] := by rw [hdrop]; exact List.cons_ne_nil _ _
    have hd : textByte d = false := by
      have hhead := List.head_dropWhile_not textByte hne
      simpa only [hdrop, List.head_cons] using hhead
    by_cases hend : d = CR ∨ d = LF
    · refine Or.inl ⟨raw, d :: rest, hraw, hsplit, ?_⟩
      intro e he
      obtain rfl : d = e := by simpa using he
      exact hend
    · obtain ⟨h1, h2⟩ := not_or.1 hend
      exact Or.inr ⟨raw, d, rest, hraw, hsplit, hd, h1, h2⟩

/-- Not both. -/
theorem not_startsContinuation {raw : Word textByte} {d : Byte} {rest : List Byte} (hd : textByte d = false)
    (hCR : d ≠ CR)
    (hLF : d ≠ LF) : ¬ StartsContinuation (raw.bytes ++ d :: rest) := by
  rintro ⟨raw', post, -, hw, hpost⟩
  have hleft : (raw.bytes ++ d :: rest).dropWhile textByte = d :: rest := by
    rw [List.dropWhile_append_of_pos raw.all, List.dropWhile_cons, if_neg (by rw [hd]; exact Bool.false_ne_true)]
  have hright : (raw'.bytes ++ post).dropWhile textByte = post := by
    rw [List.dropWhile_append_of_pos raw'.all]
    cases post with
    | nil => rfl
    | cons e post =>
      have he : textByte e = false := by
        rcases hpost e rfl with rfl | rfl <;> rfl
      rw [List.dropWhile_cons, if_neg (by rw [he]; exact Bool.false_ne_true)]
  rw [hw, hright] at hleft
  subst hleft
  rcases hpost d rfl with h | h
  · exact hCR h
  · exact hLF h

def Answer.headers (a : Answer) : List (Event Slice) := a.events.filter Event.isHeader

/-- The header callbacks of a run, as the application gets them. -/
def sectionHeaders (r : HeaderRun) : List (Event Slice) := (r.1.map fun x => x.2.trim).filter Event.isHeader

theorem sectionHeaders_alike {r r' : HeaderRun} (h : Alike r r') : sectionHeaders r = sectionHeaders r' := by
  rw [sectionHeaders, sectionHeaders, h.1]

section

variable {l : StartLine} (g : StartGrammar l)

/-- A start line that has been read is not empty. -/
theorem read_start_ne_zero {lead : Option Eol} {ph : g.Phrase} {ls : List Line} {pre : List Byte}
    (hpre : pre = leadBytes lead ++ g.bytes ph ++ linesBytes ls) : pre.length ≠ 0 := by
  have hpos := StartLineEnd.pos (g := g) ⟨lead, ph, linesBytes ls, hpre, rfl⟩
  rw [hpre, @List.length_append _ _ (linesBytes ls)]
  omega

/-- The answer to a buffer that begins with a start line and whole header lines. -/
theorem answer_lines (lead : Option Eol) (ph : g.Phrase) {ls : List Line} (hopens : Opens ls) {pre : List Byte}
    (hpre : pre = leadBytes lead ++ g.bytes ph ++ linesBytes ls) (rest : List Byte) {r : HeaderRun}
    (hr : r = run headerStep pre.length ⟨pre.length, .lineStart (!ls.isEmpty)⟩ rest) :
    (answer l (pre ++ rest) 0).code = outcomeCode r.2 ∧
      (answer l (pre ++ rest) 0).lastPos = stopMark HeaderState.mark r.2 ∧
      (answer l (pre ++ rest) 0).headers = linesEvents (leadBytes lead ++ g.bytes ph).length ls ++ sectionHeaders r ∧
      ∀ x ∈ r.1, (x.1, x.2.trim) ∈ (answer l (pre ++ rest) 0).calls := by
  subst hpre hr
  have hread := read_lines (g := g) lead ph hopens rest
  have hstart : ∀ x ∈ ((g.events (leadBytes lead).length ph).map (Prod.mk (leadBytes lead).length)).map
      (fun x => (x.1, x.2.trim)), x.2.isHeader = false := by
    intro x hx
    obtain ⟨y, hy, rfl⟩ := List.mem_map.1 hx
    obtain ⟨e, he, rfl⟩ := List.mem_map.1 hy
    have hno := g.notHeader _ ph e he
    rw [trim_of_not_header hno]
    exact hno
  refine ⟨?_, ?_, ?_, ?_⟩
  · unfold answer
    rw [hread, prepend_snd, outcomeCode_inSnd]
  · unfold answer
    rw [hread, prepend_snd, stopMark_inSnd]
  · have hcalls := headers_of_calls hstart (leadBytes lead ++ g.bytes ph).length ls
    unfold Answer.headers Answer.events answer
    rw [hread, prepend_fst, List.map_append, List.map_append, List.map_append, List.filter_append]
    rw [headerCalls] at hcalls
    rw [hcalls, List.map_map]
    rfl
  · intro x hx
    unfold answer
    rw [hread, prepend_fst, List.map_append]
    exact List.mem_append_right _ (List.mem_map_of_mem hx)

/-- The answer to a call with a `lastPos`. -/
theorem answer_resumed {b : List Byte} {p : Nat} (h0 : p ≠ 0) {r : HeaderRun}
    (hr : r = run headerStep p ⟨p, .lineStart false⟩ (b.drop p)) :
    (answer l b p).code = outcomeCode r.2 ∧ (answer l b p).lastPos = stopMark HeaderState.mark r.2 ∧
      (answer l b p).headers = sectionHeaders r := by
  subst hr
  have hread := read_resume (l := l) (b := b) h0
  refine ⟨?_, ?_, ?_⟩
  · unfold answer
    rw [hread, outcomeCode_inSnd]
    rfl
  · unfold answer
    rw [hread, stopMark_inSnd]
    rfl
  · unfold Answer.headers Answer.events answer
    rw [hread, List.map_map]
    rfl

/-- A header that has been reported lies before `lastPos`. -/
theorem HeaderPart.mark_lt {y : StartSyntax} {b : List Byte} {lastPos q m : Nat} {a : Answer} {ls : List Line}
    {e : Event Slice} (hpart : HeaderPart y b lastPos a q ls) (hcall : (m, e) ∈ a.calls) (he : e.isHeader = true) :
    m < a.lastPos := by
  obtain ⟨pre, post, hsplit⟩ := List.append_of_mem hcall
  obtain ⟨start, ls₁, l, ls₂, rfl, -, -, rfl, -⟩ := hpart.line hsplit he
  obtain ⟨closing, post', -, hn, -⟩ := hpart.covers
  have hpos : 0 < l.eol.bytes.length := by cases l.eol <;> decide
  rw [hn, linesBytes_append]
  simp only [linesBytes, List.flatMap_cons, Line.bytes, List.length_append]
  omega

/-- **One resumed call** answers as one call on the whole buffer would, unless lines have been read before it and
it starts with a continuation line. -/
theorem resume_once (h : Handler σ) (lead : Option Eol) (ph : g.Phrase) {ls : List Line} (hopens : Opens ls)
    {pre : List Byte} (hpre : pre = leadBytes lead ++ g.bytes ph ++ linesBytes ls) (rest : List Byte) :
    ((answer l (pre ++ rest) pre.length).code = (answer l (pre ++ rest) 0).code ∧
      (answer l (pre ++ rest) pre.length).lastPos = (answer l (pre ++ rest) 0).lastPos ∧
      h.hears (linesEvents (leadBytes lead ++ g.bytes ph).length ls) ++
          h.hears (answer l (pre ++ rest) pre.length).headers =
        h.hears (answer l (pre ++ rest) 0).headers) ↔
      ¬ (ls ≠ [] ∧ StartsContinuation rest) := by
  have hstart : StartLineEnd g.toStartSyntax (pre ++ rest) (leadBytes lead ++ g.bytes ph).length :=
    ⟨lead, ph, linesBytes ls ++ rest, by rw [hpre, List.append_assoc], rfl⟩
  have hpos := read_start_ne_zero g hpre
  obtain ⟨ls', hpart⟩ := headerPart_begins hstart.begins (Nat.zero_le _)
  obtain ⟨c1, m1, h1, hmem⟩ := answer_lines g lead ph hopens hpre rest rfl
  obtain ⟨c2, m2, h2⟩ := answer_resumed (l := l) (b := pre ++ rest) hpos rfl
  rw [List.drop_left' rfl] at c2 m2 h2
  rw [c1, c2, m1, m2, h1, h2, hears_append]
  have halike : ∀ r r' : HeaderRun, Alike r r' → (outcomeCode r'.2 = outcomeCode r.2 ∧
      stopMark HeaderState.mark r'.2 = stopMark HeaderState.mark r.2 ∧
      h.hears (linesEvents (leadBytes lead ++ g.bytes ph).length ls) ++ h.hears (sectionHeaders r') =
        h.hears (linesEvents (leadBytes lead ++ g.bytes ph).length ls) ++ h.hears (sectionHeaders r)) :=
    fun r r' ha => ⟨ha.2.1.symm, ha.2.2.symm, by rw [sectionHeaders_alike ha]⟩
  by_cases hls : ls = []
  · subst hls
    exact iff_of_true (halike _ _ ⟨rfl, rfl, rfl⟩) fun hcut => hcut.1 rfl
  have hempty : (!ls.isEmpty) = true := by
    cases ls with
    | nil => exact absurd rfl hls
    | cons l ls => rfl
  rw [hempty] at hmem m1 ⊢
  by_cases hblank : ∀ c ∈ rest.head?, blank c = false
  · refine iff_of_true (halike _ _ (run_lineStart_alike _ hblank)) ?_
    rintro ⟨-, raw, post, hraw, rfl, -⟩
    obtain ⟨c, cs, hw, -, -⟩ := Word.exists_cons raw
    have htrue := hraw c (by rw [hw]; rfl)
    rw [hblank c (by rw [hw]; rfl)] at htrue
    cases htrue
  · obtain ⟨c, cs, rfl, hc⟩ : ∃ c cs, rest = c :: cs ∧ blank c = true := by
      cases rest with
      | nil => exact absurd (by simp) hblank
      | cons c cs => exact ⟨c, cs, rfl, by simpa using hblank⟩
    rcases @startsContinuation_or c cs hc with hcont | ⟨raw, d, r, hraw, hsplit, hd, hCR, hLF⟩
    · refine iff_of_false ?_ (not_not.2 ⟨hls, hcont⟩)
      rw [run_lineStart_blank _ hc]
      rintro ⟨hcode, hmark, -⟩
      obtain ⟨raw, post, hraw, hw, hpost⟩ := hcont
      rw [hw] at hcode hmark hmem m1
      rcases continuation_accepted pre.length raw hraw hpost with hne | ⟨e, he, hreported⟩
      · exact hne hcode.symm
      · have htrim : e.trim.isHeader = true := by rw [trim_isHeader, he]
        rw [hw] at hpart
        have hlt := hpart.mark_lt (hmem _ hreported) htrim
        rw [m1, ← hmark] at hlt
        exact Nat.lt_irrefl _ hlt
    · rw [hsplit, continuation_refused _ raw hraw hd hCR hLF, ← hsplit, run_lineStart_blank _ hc]
      refine iff_of_true ⟨rfl, rfl, rfl⟩ ?_
      rintro ⟨-, hcont⟩
      rw [hsplit] at hcont
      exact not_startsContinuation hd hCR hLF hcont

/-! ## Calls that ask for more -/

theorem content_no_LF (x : Content) : LF ∉ x.bytes := by
  intro hmem
  cases x with
  | named n raw =>
    rcases List.mem_append.1 hmem with h | h
    · exact (tokenByte_plain (n.all LF h)).2.2.2.1 rfl
    · rcases List.mem_cons.1 h with h | h
      · exact absurd h (by decide)
      · exact (textByte_plain (raw.all LF h)).2 rfl
  | continued raw hraw => exact (textByte_plain (raw.all LF hmem)).2 rfl

/-- A line that is still being read has no LF yet. -/
theorem HeaderPhase.Reads.no_LF {m : Nat} {later : Bool} {tail : List Byte} {phase : HeaderPhase}
    (h : phase.Reads m later tail) : LF ∉ tail := by
  intro hmem
  cases phase with
  | lineStart hasHeader =>
    obtain ⟨rfl, -⟩ := h
    cases hmem
  | closingCR =>
    obtain rfl : tail = [CR] := h
    exact absurd (List.mem_singleton.1 hmem) (by decide)
  | name acc =>
    obtain ⟨n, rfl, -⟩ := h
    exact (tokenByte_plain (n.all LF hmem)).2.2.2.1 rfl
  | blanks nm =>
    obtain ⟨n, raw, -, rfl, -⟩ := h
    exact content_no_LF _ hmem
  | value nm acc =>
    obtain ⟨x, -, rfl, -⟩ := h
    exact content_no_LF x hmem
  | valueCR nm acc =>
    obtain ⟨x, -, rfl, -⟩ := h
    rcases List.mem_append.1 hmem with h | h
    · exact content_no_LF x h
    · exact absurd (List.mem_singleton.1 h) (by decide)

theorem inSnd_live {r : HeaderRun} {o : List (Nat × Event Slice)} {s : HeadState l} (h : inSnd r = (o, .live s)) :
    ∃ t, r.2 = .live t := by
  obtain ⟨o', t | ⟨v, rest⟩⟩ := r
  · exact ⟨t, rfl⟩
  · cases h

/-- Whole lines have been read, and the beginning of a further one. -/
structure Suspended (p : Nat) (w : List Byte) (r : HeaderRun) (ls : List Line) (tail : List Byte) : Prop where
  opens : Opens ls
  text : w = linesBytes ls ++ tail
  open_line : LF ∉ tail
  mark : stopMark HeaderState.mark r.2 = p + (linesBytes ls).length
  headers : sectionHeaders r = linesEvents p ls

theorem suspended {p : Nat} {w : List Byte} {t : HeaderState}
    (h : (run headerStep p (headerStart p) w).2 = .live t) :
    ∃ ls tail, Suspended p w (run headerStep p (headerStart p) w) ls tail := by
  obtain ⟨ls, tail, hopens, hw, ho, hend⟩ := run_header_lines p w
  rw [h] at hend
  refine ⟨ls, tail, hopens, hw, hend.2.no_LF, by rw [h]; exact hend.1, ?_⟩
  have hcalls := @headers_of_calls [] (fun x hx => absurd hx (List.not_mem_nil)) p ls
  rw [List.nil_append, headerCalls, List.map_map] at hcalls
  rw [sectionHeaders, ho]
  exact hcalls

/-! ## Runs -/

/-- A start line and at least one whole header line. -/
def HasLines (y : StartSyntax) (pre : List Byte) : Prop :=
  ∃ (lead : Option Eol) (ph : y.Phrase) (ls : List Line), Opens ls ∧ ls ≠ [] ∧
    pre = leadBytes lead ++ y.bytes ph ++ linesBytes ls

/-- What `b` has behind its last whole line, which is a header line, is a continuation line in `b'`. -/
def CutBefore (y : StartSyntax) (b b' : List Byte) : Prop :=
  ∃ pre tail rest : List Byte, HasLines y pre ∧ b = pre ++ tail ∧ LF ∉ tail ∧ b' = pre ++ rest ∧ StartsContinuation rest

/-- The last two buffers are cut so. -/
def CutAtContinuation (y : StartSyntax) (bs : List (List Byte)) : Prop :=
  ∃ (init : List (List Byte)) (b b' : List Byte), bs = init ++ [b, b'] ∧ CutBefore y b b'

theorem cutAtContinuation_two {y : StartSyntax} {b b' : List Byte} :
    CutAtContinuation y [b, b'] ↔ CutBefore y b b' := by
  constructor
  · rintro ⟨init, c, c', h, hcut⟩
    have hnil : init = [] := by
      have hlen := congrArg List.length h
      simp only [List.length_append, List.length_cons, List.length_nil] at hlen
      exact List.length_eq_zero_iff.1 (by omega)
    subst hnil
    cases h
    exact hcut
  · intro hcut
    exact ⟨[], b, b', rfl, hcut⟩

theorem cutAtContinuation_cons {y : StartSyntax} {a b c : List Byte} {bs : List (List Byte)} :
    CutAtContinuation y (a :: b :: c :: bs) ↔ CutAtContinuation y (b :: c :: bs) := by
  constructor
  · rintro ⟨init, d, d', h, hcut⟩
    cases init with
    | nil => cases h
    | cons a' init =>
      obtain ⟨-, h⟩ := List.cons.inj h
      exact ⟨init, d, d', h, hcut⟩
  · rintro ⟨init, d, d', h, hcut⟩
    exact ⟨a :: init, d, d', congrArg (a :: ·) h, hcut⟩

/-- The last LF splits a buffer in one way only. -/
theorem ended_unique {a b c d : List Byte} (ha : Ended a) (hc : Ended c) (hb : LF ∉ b) (hd : LF ∉ d)
    (h : a ++ b = c ++ d) : a = c := by
  have hnil : ∀ {u mid : List Byte}, Ended (u ++ mid) → LF ∉ mid → mid = [] := by
    intro u mid hu hmid
    rcases List.eq_nil_or_concat mid with rfl | ⟨mid', e, rfl⟩
    · rfl
    · rcases hu with hu | ⟨v, hv⟩
      · simp at hu
      · rw [List.concat_eq_append, ← List.append_assoc] at hv
        have he := (List.append_inj' hv rfl).2
        simp only [List.cons.injEq, and_true] at he
        subst he
        exact absurd (by simp) hmid
  rcases List.append_eq_append_iff.1 h with ⟨mid, rfl, rfl⟩ | ⟨mid, rfl, rfl⟩
  · rw [hnil hc fun hmem => hb (List.mem_append_left _ hmem), List.append_nil]
  · rw [hnil ha fun hmem => hd (List.mem_append_left _ hmem), List.append_nil]

/-- Whether header lines have been read does not depend on how a buffer is taken apart. -/
theorem no_lines {lead : Option Eol} {ph : g.Phrase} {pre : List Byte}
    (hpre : pre = leadBytes lead ++ g.bytes ph ++ linesBytes []) : ¬ HasLines g.toStartSyntax pre := by
  rintro ⟨lead', ph', ls, hopens, hne, hpre'⟩
  have hnone := (answer_lines g lead ph (by simp [Opens]) hpre [] rfl).2.2.1
  have hsome := (answer_lines g lead' ph' hopens hpre' [] rfl).2.2.1
  rw [hnone] at hsome
  cases ls with
  | nil => exact hne rfl
  | cons line ls => cases hsome

/-- The condition on two buffers, for a first one that is taken apart. -/
theorem cutBefore_iff {lead : Option Eol} {ph : g.Phrase} {ls : List Line} (hopens : Opens ls) {pre : List Byte}
    (hpre : pre = leadBytes lead ++ g.bytes ph ++ linesBytes ls) {tail rest : List Byte} (htail : LF ∉ tail) :
    CutBefore g.toStartSyntax (pre ++ tail) (pre ++ rest) ↔ ls ≠ [] ∧ StartsContinuation rest := by
  constructor
  · rintro ⟨pre', tail', rest', hlines, hb, htail', hb', hcont⟩
    have hended : Ended pre := by
      rw [hpre]
      exact ((leadBytes_ended lead).append (g.ended ph)).append (linesBytes_ended ls)
    have hended' : Ended pre' := by
      obtain ⟨lead', ph', ls', -, -, rfl⟩ := hlines
      exact ((leadBytes_ended lead').append (g.ended ph')).append (linesBytes_ended ls')
    obtain rfl := ended_unique hended hended' htail htail' hb
    obtain rfl := List.append_cancel_left hb'
    refine ⟨?_, hcont⟩
    rintro rfl
    exact no_lines g hpre hlines
  · rintro ⟨hne, hcont⟩
    exact ⟨pre, tail, rest, ⟨lead, ph, ls, hopens, hne, hpre⟩, rfl, htail, rfl, hcont⟩

/-- A call with a `lastPos` that asks for more. -/
theorem answer_resumed_suspended {b : List Byte} {p : Nat} (h0 : p ≠ 0)
    (hcode : (answer l b p).code = err .partialData) :
    ∃ ls tail, Opens ls ∧ b.drop p = linesBytes ls ++ tail ∧ LF ∉ tail ∧
      (answer l b p).lastPos = p + (linesBytes ls).length ∧ (answer l b p).headers = linesEvents p ls := by
  obtain ⟨o, s, hread⟩ := code_partial_iff.1 hcode
  rw [read_resume h0] at hread
  obtain ⟨t, ht⟩ := inSnd_live hread
  obtain ⟨ls, tail, hs⟩ := suspended ht
  obtain ⟨-, hmark, hheaders⟩ := answer_resumed (l := l) (b := b) h0 rfl
  exact ⟨ls, tail, hs.opens, hs.text, hs.open_line, hmark.trans hs.mark, hheaders.trans hs.headers⟩

/-- A first call that asks for more behind its start line. -/
theorem answer_start_suspended {b : List Byte} (hstart : ∃ q, StartLineEnd g.toStartSyntax b q)
    (hcode : (answer l b 0).code = err .partialData) :
    ∃ lead ph ls tail, Opens ls ∧ b = leadBytes lead ++ g.bytes ph ++ linesBytes ls ++ tail ∧ LF ∉ tail ∧
      (answer l b 0).lastPos = (leadBytes lead ++ g.bytes ph ++ linesBytes ls).length ∧
      (answer l b 0).headers = linesEvents (leadBytes lead ++ g.bytes ph).length ls := by
  obtain ⟨q, lead, ph, rest, rfl, -⟩ := hstart
  obtain ⟨o, s, hread⟩ := code_partial_iff.1 hcode
  rw [read_startLine] at hread
  obtain ⟨t, ht⟩ := inSnd_live (Prod.ext rfl (Prod.mk.inj hread).2)
  obtain ⟨ls, tail, hs⟩ := suspended ht
  have hpre : leadBytes lead ++ g.bytes ph = leadBytes lead ++ g.bytes ph ++ linesBytes [] := (List.append_nil _).symm
  obtain ⟨-, hmark, hheaders, -⟩ := answer_lines g lead ph (by simp [Opens]) hpre rest rfl
  refine ⟨lead, ph, ls, tail, hs.opens, by rw [hs.text, List.append_assoc _ (linesBytes ls)], hs.open_line, ?_, ?_⟩
  · rw [hmark, @List.length_append _ _ (linesBytes ls)]
    exact hs.mark
  · rw [hheaders]
    exact hs.headers

theorem opens_lines {ls ls' : List Line} (h : Opens ls) (h' : Opens ls') : Opens (ls ++ ls') := by
  cases ls with
  | nil => exact h'
  | cons l ls => exact h

end

theorem Entry.observe_headers (entry : Entry) (simd : Simd) {h : Handler σ} (hn : h.NeverRejects) {b : List Byte}
    (hb : b.length < 2 ^ 31) {lastPos : Nat} (hpos : lastPos ≤ b.length) (s : σ) :
    (entry.observe simd h b lastPos s).headers = h.hears (answer entry.line b lastPos).headers := by
  rw [Report.headers, (entry.observe_accepting simd hn hb hpos s).2, hears_headers]
  rfl

/-- Every call but the last asks for more. -/
def AllAskForMore (calls : List (Call σ)) : Prop := ∀ c ∈ calls.dropLast, c.report.code = .ok (err .partialData)

/-- A run ends as one call on its last buffer would, `es` being the header callbacks made before it. -/
def EndsAsFresh (entry : Entry) (simd : Simd) (h : Handler σ) (s : σ) (es : List (Event Slice))
    (calls : List (Call σ)) :
    Prop :=
  ∀ c ∈ calls.getLast?, c.report.result = (entry.observe simd h c.buffer 0 s).result ∧
    es ++ calls.flatMap (fun c => c.report.headers) = (entry.observe simd h c.buffer 0 s).headers

theorem endsAsFresh_one {entry : Entry} {simd : Simd} {h : Handler σ} {s : σ} {es : List (Event Slice)} {c : Call σ} :
    EndsAsFresh entry simd h s es [c] ↔ c.report.result = (entry.observe simd h c.buffer 0 s).result ∧
      es ++ c.report.headers = (entry.observe simd h c.buffer 0 s).headers := by
  simp [EndsAsFresh]

theorem endsAsFresh_cons {entry : Entry} {simd : Simd} {h : Handler σ} {s : σ} {es : List (Event Slice)} {c d : Call σ}
    {calls : List (Call σ)} :
    EndsAsFresh entry simd h s es (c :: d :: calls) ↔
      EndsAsFresh entry simd h s (es ++ c.report.headers) (d :: calls) := by
  rw [EndsAsFresh, EndsAsFresh, List.getLast?_cons_cons, List.flatMap_cons, List.append_assoc]

/-- **The rest of a run**, the lines `ls` having been reported: by induction on its buffers. -/
theorem session_resumed (entry : Entry) (simd : Simd) {h : Handler σ} (hn : h.NeverRejects) (s₀ : σ)
    {bs : List (List Byte)} (hne : bs ≠ []) {lead : Option Eol} {ph : entry.grammar.Phrase} {ls : List Line}
    (hopens : Opens ls) {pre tail : List Byte} (hpre : pre = leadBytes lead ++ entry.grammar.bytes ph ++ linesBytes ls)
    (htail : LF ∉ tail) (hbs : Growing ((pre ++ tail) :: bs)) (s : σ)
    (hmore : AllAskForMore (entry.session simd h bs pre.length s)) :
    EndsAsFresh entry simd h s₀ (h.hears (linesEvents (leadBytes lead ++ entry.grammar.bytes ph).length ls))
        (entry.session simd h bs pre.length s) ↔
      ¬ CutAtContinuation entry.grammar.toStartSyntax ((pre ++ tail) :: bs) := by
  induction bs generalizing ls pre tail s with
  | nil => exact absurd rfl hne
  | cons b bs ih =>
    obtain ⟨x, rfl⟩ := hbs.next_le b rfl
    have hgrow := hbs
    rw [List.append_assoc] at hmore hbs ⊢
    have hb := hbs.short (pre ++ (tail ++ x)) (by simp)
    have hpos : pre.length ≤ (pre ++ (tail ++ x)).length := (List.prefix_append _ _).length_le
    have hp0 := read_start_ne_zero entry.grammar hpre
    have hres := (entry.observe_accepting simd hn hb hpos s).1
    have hheaders := entry.observe_headers simd hn hb hpos s
    rw [Entry.session_cons hres] at hmore ⊢
    cases bs with
    | nil =>
      have hfresh := (entry.observe_accepting simd hn hb (Nat.zero_le _) s₀).1
      have hfreshHeaders := entry.observe_headers simd hn hb (Nat.zero_le _) s₀
      rw [Entry.session, endsAsFresh_one, cutAtContinuation_two, cutBefore_iff entry.grammar hopens hpre htail,
        ← resume_once entry.grammar h lead ph hopens hpre, hres, hfresh, hheaders, hfreshHeaders, Except.ok.injEq,
        Prod.mk.injEq, and_assoc]
    | cons b₂ bs =>
      -- this call asks for more: the lines it has reported are whole, and the run goes on behind them
      obtain ⟨d, calls, hrest⟩ := Entry.session_nonempty entry simd h b₂ bs
        (answer entry.line (pre ++ (tail ++ x)) pre.length).lastPos
        (entry.observe simd h (pre ++ (tail ++ x)) pre.length s).state
      rw [hrest] at hmore ⊢
      have hcode : (answer entry.line (pre ++ (tail ++ x)) pre.length).code = err .partialData := by
        have hfirst := hmore _ (List.mem_cons_self ..)
        rw [Report.code, hres] at hfirst
        exact Except.ok.inj hfirst
      obtain ⟨ls', tail', hopens', hdrop, htail', hlast, hnew⟩ := answer_resumed_suspended hp0 hcode
      rw [List.drop_left' rfl] at hdrop
      have hpre' : pre ++ linesBytes ls' = leadBytes lead ++ entry.grammar.bytes ph ++ linesBytes (ls ++ ls') := by
        rw [hpre, linesBytes_append, List.append_assoc (leadBytes lead ++ _)]
      have hlines : linesEvents (leadBytes lead ++ entry.grammar.bytes ph).length (ls ++ ls') =
          linesEvents (leadBytes lead ++ entry.grammar.bytes ph).length ls ++ linesEvents pre.length ls' := by
        rw [linesEvents_append, hpre, @List.length_append _ _ (linesBytes ls)]
      have hlast' : (answer entry.line (pre ++ (tail ++ x)) pre.length).lastPos = (pre ++ linesBytes ls').length := by
        rw [hlast, List.length_append]
      have hbuffer : pre ++ (tail ++ x) = pre ++ linesBytes ls' ++ tail' := by rw [hdrop, List.append_assoc]
      rw [hlast'] at hrest
      rw [endsAsFresh_cons, hheaders, hnew, ← hears_append, ← hlines, cutAtContinuation_cons, ← hrest]
      have hgrow' := hbs.tail
      have hmore' : AllAskForMore (d :: calls) := fun c hc => hmore c (List.mem_cons_of_mem _ hc)
      rw [← hrest] at hmore'
      rw [hbuffer] at hgrow' hmore' ⊢
      exact ih (List.cons_ne_nil _ _) (opens_lines hopens hopens') hpre' htail' hgrow' _ hmore'

/-- **Resuming inside the header section.** A run whose first call has got behind its start line and in which every
call but the last asks for more ends as one call on the last buffer would, and all its calls together
report the headers of that call, unless the last call starts with a continuation line. -/
theorem resume_in_headers (entry : Entry) (simd : Simd) {h : Handler σ} (hn : h.NeverRejects) {b : List Byte}
    {bs : List (List Byte)} (hbs : Growing (b :: bs)) (hstart : ∃ q, StartLineEnd entry.grammar.toStartSyntax b q)
    (s : σ)
    (hmore : AllAskForMore (entry.session simd h (b :: bs) 0 s)) :
    EndsAsFresh entry simd h s [] (entry.session simd h (b :: bs) 0 s) ↔
      ¬ CutAtContinuation entry.grammar.toStartSyntax (b :: bs) := by
  have hb := hbs.short b (List.mem_cons_self ..)
  have hres := (entry.observe_accepting simd hn hb (Nat.zero_le _) s).1
  have hheaders := entry.observe_headers simd hn hb (Nat.zero_le _) s
  rw [Entry.session_cons hres] at hmore ⊢
  cases bs with
  | nil =>
    rw [Entry.session, endsAsFresh_one]
    refine iff_of_true ⟨rfl, rfl⟩ ?_
    rintro ⟨init, c, c', hcut, -⟩
    have hlen := congrArg List.length hcut
    simp only [List.length_append, List.length_cons, List.length_nil] at hlen
    omega
  | cons b₂ bs =>
    obtain ⟨d, calls, hrest⟩ := Entry.session_nonempty entry simd h b₂ bs (answer entry.line b 0).lastPos
      (entry.observe simd h b 0 s).state
    rw [hrest] at hmore ⊢
    have hcode : (answer entry.line b 0).code = err .partialData := by
      have hfirst := hmore _ (List.mem_cons_self ..)
      rw [Report.code, hres] at hfirst
      exact Except.ok.inj hfirst
    obtain ⟨lead, ph, ls, tail, hopens, rfl, htail, hlast, hnew⟩ :=
      answer_start_suspended entry.grammar hstart hcode
    have hmore' : AllAskForMore (d :: calls) := fun c hc => hmore c (List.mem_cons_of_mem _ hc)
    rw [hlast] at hrest
    rw [endsAsFresh_cons, List.nil_append, hheaders, hnew, ← hrest]
    rw [← hrest] at hmore'
    exact session_resumed entry simd hn s (List.cons_ne_nil _ _) hopens rfl htail hbs _ hmore'

/-- "foo: a" and its continuation " b", cut between the two lines. -/
def cutPieces : List (List Byte) :=
  [ascii "GET / HTTP/1.0\r\nfoo: a\r\n", ascii "GET / HTTP/1.0\r\nfoo: a\r\n b\r\n\r\n"]

/-- One call completes; the run ends with the error `token`. -/
theorem resume_in_headers_cut :
    (Entry.request.session .unrolled Handler.recorder cutPieces 0 ()).map (fun c => c.report.result) =
        [.ok (err .partialData, 24), .ok (err .token, 24)] ∧
      (Entry.request.observe .unrolled Handler.recorder (ascii "GET / HTTP/1.0\r\nfoo: a\r\n b\r\n\r\n") 0 ()).result =
        .ok (30, 30) := by
  constructor <;> decide +kernel

/-- "GET / HTTP/1.0" and a CRLF. -/
def getLine : RequestLine where
  method := word "GET" (by decide) (by decide)
  gap₁ := oneSpace
  uri := word "/" (by decide) (by decide)
  gap₂ := oneSpace
  version := word "HTTP/1.0" (by decide) (by decide)
  eol := .crlf

theorem resume_in_headers_twoPieces :
    EndsAsFresh .request .unrolled Handler.recorder () []
        (Entry.request.session .unrolled Handler.recorder twoPieces 0 ()) ↔
      ¬ CutAtContinuation requestGrammar.toStartSyntax twoPieces := by
  apply resume_in_headers .request .unrolled Handler.recorder_neverRejects twoPieces_growing
  · exact ⟨16, none, getLine, ascii "foo: a\r\nba", rfl, rfl⟩
  · unfold AllAskForMore
    decide +kernel

end Httparsed
