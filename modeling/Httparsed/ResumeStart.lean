import Httparsed.Resume

/-!
# Resuming inside the start line (httparsed.d:122-142, `lastPos`)

A `lastPos` other than 0 tells `parse` that the start line is behind it. The empty line in front of a head is
skipped by moving `lastPos`, so a call that then stops inside the start line leaves a `lastPos` other than 0
behind, and the next call reads the start line as header lines. `resume_in_start_line`: that is the only
way in which resuming inside the start line goes wrong, and it goes wrong on every buffer that begins with an
empty line, but for those that both readers leave undecided or refuse with `token` at their first token.
-/

namespace Httparsed

open Transducer Grammar

variable {σ : Type}

/-- The tolerated empty line comes first. -/
def StartsWithEol (b : List Byte) : Prop := ∃ eol : Eol, eol.bytes <+: b

theorem eol_unique {eol eol' : Eol} {t t' : List Byte} (h : eol.bytes ++ t = eol'.bytes ++ t') :
    eol = eol' ∧ t = t' := by
  cases eol with
  | crlf =>
    cases eol' with
    | crlf => exact ⟨rfl, List.append_cancel_left h⟩
    | lf => exact absurd (List.cons.inj h).1 (by decide)
  | lf =>
    cases eol' with
    | crlf => exact absurd (List.cons.inj h).1 (by decide)
    | lf => exact ⟨rfl, List.append_cancel_left h⟩

theorem not_startsWithEol {c : Byte} {cs : List Byte} (h : c ≠ CR ∧ c ≠ LF) : ¬ StartsWithEol (c :: cs) := by
  rintro ⟨eol, t, ht⟩
  cases eol with
  | crlf => exact h.1 (List.cons.inj ht).1.symm
  | lf => exact h.2 (List.cons.inj ht).1.symm

/-! ## The first token of a start line -/

/-- How a start line reads its first token. -/
structure FirstToken (l : StartLine) where
  cls : Byte → Bool
  phase : Slice → l.State
  plain : ∀ c, cls c = true → c ≠ CR ∧ c ≠ LF ∧ c ≠ COLON
  start : ∀ p, l.start p = phase ⟨p, []⟩
  keep : ∀ p acc c, cls c = true → l.step p (phase acc) c = ([], .more (phase (acc.push c)))
  refuse : ∀ p acc c, cls c = false → c ≠ SP → l.step p (phase acc) c = ([], .halt (.error .token))
  missing : ∀ p acc, acc.bytes = [] → ∃ e : ParserError, e ≠ .token ∧ l.step p (phase acc) SP = ([], .halt (.error e))
  report : ∀ p acc, acc.bytes ≠ [] → ∃ (e : Event Slice) (s : l.State), l.step p (phase acc) SP = ([e], .more s)

def requestFirst : FirstToken requestLine where
  cls := tokenByte
  phase := RequestState.method
  plain := fun _ h => ⟨(tokenByte_plain h).2.2.1, (tokenByte_plain h).2.2.2⟩
  start := fun _ => rfl
  keep := fun _ _ _ h => by simp only [requestLine, requestStep, stepMethod, h, ↓reduceIte]
  refuse := fun _ _ _ h h' => by
    simp only [requestLine, requestStep, stepMethod, h, Bool.false_eq_true, if_neg h', ↓reduceIte]
  missing := fun _ _ h => ⟨.noMethod, by decide, by
    simp only [requestLine, requestStep, stepMethod, h, ↓reduceIte]
    rfl⟩
  report := fun _ acc h => ⟨.onMethod acc, .methodSpaces, by
    simp only [requestLine, requestStep, stepMethod, h, ↓reduceIte]
    rfl⟩

theorem versionByte_ne_COLON {c : Byte} (h : versionByte c = true) : c ≠ COLON := by
  rintro rfl
  exact absurd h (by decide)

def statusFirst : FirstToken statusLine where
  cls := versionByte
  phase := StatusState.version
  plain := fun _ h => ⟨(versionByte_plain h).2.1, (versionByte_plain h).2.2, versionByte_ne_COLON h⟩
  start := fun _ => rfl
  keep := fun _ _ _ h => by simp only [statusLine, statusStep, stepStatusVersion, h, ↓reduceIte]
  refuse := fun _ _ _ h h' => by
    simp only [statusLine, statusStep, stepStatusVersion, h, Bool.false_eq_true, if_neg h', ↓reduceIte]
  missing := fun _ _ h => ⟨.noVersion, by decide, by
    simp only [statusLine, statusStep, stepStatusVersion, h, ↓reduceIte]
    rfl⟩
  report := fun _ acc h => ⟨.onVersion acc, .versionSpaces, by
    simp only [statusLine, statusStep, stepStatusVersion, h, ↓reduceIte]
    rfl⟩

def Entry.first : (entry : Entry) → FirstToken entry.line
  | .request => requestFirst
  | .response => statusFirst

/-- All of a list is of a class, or there is a first one that is not. -/
theorem all_or_split {α : Type} (P : α → Bool) (t : List α) :
    (∀ c ∈ t, P c = true) ∨ ∃ w d rest, t = w ++ d :: rest ∧ (∀ c ∈ w, P c = true) ∧ P d = false := by
  cases h : t.find? (fun c => !P c) with
  | none =>
    left
    intro c hc
    simpa using List.find?_eq_none.1 h c hc
  | some d =>
    obtain ⟨hd, w, rest, rfl, hw⟩ := List.find?_eq_some_iff_append.1 h
    exact Or.inr ⟨w, d, rest, rfl, by simpa using hw, by simpa using hd⟩

/-! ## Read as a start line -/

section

variable {l : StartLine}

/-- Behind an empty line, the start line is read. -/
theorem read_eol (eol : Eol) (t : List Byte) :
    read l (eol.bytes ++ t) 0 =
      run (headStep l) eol.bytes.length (.inl (.line eol.bytes.length (l.start eol.bytes.length))) t :=
  (if_pos rfl).trans (run_leadEol eol t)

theorem run_first (f : FirstToken l) (m : Nat) {w : List Byte} (hw : ∀ c ∈ w, f.cls c = true) (rest : List Byte) :
    run l.step m (l.start m) (w ++ rest) = run l.step (m + w.length) (f.phase ⟨m, w⟩) rest := by
  rw [f.start]
  exact run_collect f.phase (fun p acc c h => f.keep p acc c h) hw m ⟨m, []⟩ rest

/-- Nothing but the first token so far. -/
theorem read_first_all (f : FirstToken l) (eol : Eol) {t : List Byte} (ht : ∀ c ∈ t, f.cls c = true) :
    ∃ s, read l (eol.bytes ++ t) 0 = ([], .live s) ∧ HeadState.mark s = eol.bytes.length := by
  have hrun := run_first f eol.bytes.length ht []
  rw [List.append_nil, run_nil] at hrun
  rw [read_eol, run_headStep_line, hrun]
  exact ⟨_, rfl, rfl⟩

/-- A first token with a byte in it that no token has. -/
theorem read_first_refused (f : FirstToken l) (eol : Eol) {w : List Byte} {d : Byte} (hw : ∀ c ∈ w, f.cls c = true)
    (hd : f.cls d = false) (hSP : d ≠ SP) (rest : List Byte) :
    read l (eol.bytes ++ (w ++ d :: rest)) 0 = ([], .halted (.error (.token, eol.bytes.length)) rest) := by
  have hrun := run_first f eol.bytes.length hw (d :: rest)
  rw [run_halt (f.refuse _ _ d hd hSP)] at hrun
  rw [read_eol, run_headStep_line, hrun]
  rfl

/-- No first token. -/
theorem read_first_missing (f : FirstToken l) (eol : Eol) (rest : List Byte) :
    ∃ e : ParserError, e ≠ .token ∧ outcomeCode (read l (eol.bytes ++ SP :: rest) 0).2 = err e := by
  obtain ⟨e, he, hstep⟩ := f.missing eol.bytes.length ⟨eol.bytes.length, []⟩ rfl
  refine ⟨e, he, ?_⟩
  rw [read_eol, run_headStep_line, f.start, run_halt hstep]
  rfl

/-- A whole first token is reported. -/
theorem read_first_reported (f : FirstToken l) (eol : Eol) {w : List Byte} (hw : ∀ c ∈ w, f.cls c = true) (hne : w ≠ [])
    (rest : List Byte) :
    ∃ x ∈ (read l (eol.bytes ++ (w ++ SP :: rest)) 0).1, x.2.isHeader = false := by
  obtain ⟨e, s, hstep⟩ := f.report (eol.bytes.length + w.length) ⟨eol.bytes.length, w⟩ hne
  have hno := l.notHeader _ _ _ e (show e ∈ (l.step _ _ SP).1 by rw [hstep]; exact List.mem_singleton.2 rfl)
  refine ⟨(eol.bytes.length, e), ?_, hno⟩
  rw [read_eol, run_headStep_line, run_first f _ hw, run_more hstep, prepend_fst]
  exact List.mem_append_left _ (List.mem_map_of_mem (List.mem_append_left _ (List.mem_singleton.2 rfl)))

end

/-! ## Read as a header line -/

/-- The header section refuses its first line with `token`: a byte in the name that no token has, or a byte in
the value that no text has. -/
def RefusedHeader (t : List Byte) : Prop :=
  (∃ (w : List Byte) (d : Byte) (rest : List Byte), t = w ++ d :: rest ∧ (∀ c ∈ w, tokenByte c = true) ∧
    tokenByte d = false ∧ d ≠ COLON ∧ (w ≠ [] ∨ (d ≠ CR ∧ d ≠ LF))) ∨
  ∃ (n : Word tokenByte) (raw : Text textByte) (d : Byte) (rest : List Byte),
    t = n.bytes ++ COLON :: (raw.bytes ++ d :: rest) ∧ textByte d = false ∧ d ≠ CR ∧ d ≠ LF

/-- Nothing but a name so far. -/
theorem header_all (m : Nat) {t : List Byte} (ht : ∀ c ∈ t, tokenByte c = true) :
    ∃ s, run headerStep m (headerStart m) t = ([], .live s) ∧ s.mark = m := by
  have hlive : ∃ phase, run lineStep m (.lineStart false) t = ([], .live phase) := by
    rcases List.eq_nil_or_concat t with rfl | ⟨w, d, rfl⟩
    · exact ⟨_, rfl⟩
    · rw [List.concat_eq_append] at ht ⊢
      have hd := ht d (by simp)
      obtain ⟨-, -, h1, h2, -⟩ := tokenByte_plain hd
      have hstep : lineStep (m + w.length) (.name ⟨m, w⟩) d = ([], .more (.name (Slice.push ⟨m, w⟩ d))) := by
        simp only [lineStep, stepName, hd, ↓reduceIte]
      rw [run_name m (fun c hc => ht c (List.mem_append_left _ hc)) (Or.inr ⟨h1, h2, fun h => by cases h⟩),
        run_more hstep]
      exact ⟨_, rfl⟩
  obtain ⟨phase, hrun⟩ := hlive
  rw [headerStart, run_headerStep, hrun]
  exact ⟨_, rfl, rfl⟩

/-- A byte in a name that no name has. -/
theorem run_name_refused (p : Nat) {hasHeader : Bool} {w : List Byte} {d : Byte} (hw : ∀ c ∈ w, tokenByte c = true)
    (hd : tokenByte d = false) (hcolon : d ≠ COLON)
    (hfirst : w ≠ [] ∨ (d ≠ CR ∧ d ≠ LF ∧ (hasHeader = true → blank d = false))) (rest : List Byte) :
    run headerStep p ⟨p, .lineStart hasHeader⟩ (w ++ d :: rest) = ([], .halted (.error (.token, p)) rest) := by
  have hstep : lineStep (p + w.length) (.name ⟨p, w⟩) d = ([], .halt (.error .token)) := by
    simp only [lineStep, stepName, hd, Bool.false_eq_true, if_neg hcolon, ↓reduceIte]
  rw [run_headerStep, run_name p hw hfirst, run_halt hstep]

theorem header_refused (m : Nat) {t : List Byte} (ht : RefusedHeader t) :
    ∃ rest, run headerStep m (headerStart m) t = ([], .halted (.error (.token, m)) rest) := by
  rcases ht with ⟨w, d, rest, rfl, hw, hd, hcolon, hfirst⟩ | ⟨n, raw, d, rest, rfl, hd, hCR, hLF⟩
  · exact ⟨rest, run_name_refused m hw hd hcolon (hfirst.imp_right fun h => ⟨h.1, h.2, fun h => by cases h⟩) rest⟩
  · have hblank : blank d = false := by
      rw [Bool.eq_false_iff]
      intro hb
      rw [textByte_of_blank hb] at hd
      cases hd
    have hstep : ∀ q acc, lineStep q (.value (some ⟨m, n.bytes⟩) acc) d = ([], .halt (.error .token)) := by
      intro q acc
      simp only [lineStep, stepValue, hd, Bool.false_eq_true, if_neg hCR, if_neg hLF, ↓reduceIte]
    refine ⟨rest, ?_⟩
    rw [headerStart, run_headerStep, run_named, run_blanks _ _ raw hblank, run_halt (hstep _ _)]

/-- A step of the first line that ends in `token`. -/
theorem lineStep_token {m : Nat} {tail : List Byte} {phase : HeaderPhase} {d : Byte} {o : List (Event Slice)}
    (hi : phase.Reads m false tail) (hs : lineStep (m + tail.length) phase d = (o, .halt (.error .token)))
    (rest : List Byte) :
    RefusedHeader (tail ++ d :: rest) := by
  have hname : ∀ acc : Slice, stepName acc d = (o, .halt (.error .token)) → tokenByte d = false ∧ d ≠ COLON := by
    intro acc h
    unfold stepName at h
    split_ifs at h with h1 h2 h3 <;> cases h
    exact ⟨Bool.eq_false_iff.2 h1, h2⟩
  have hvalue : ∀ (nm : Option Slice) (acc : Slice), stepValue nm acc d = (o, .halt (.error .token)) →
      textByte d = false ∧ d ≠ CR ∧ d ≠ LF := by
    intro nm acc h
    unfold stepValue at h
    split_ifs at h with h1 h2 h3 <;> cases h
    exact ⟨Bool.eq_false_iff.2 h1, h2, h3⟩
  cases phase with
  | lineStart hasHeader =>
    obtain ⟨rfl, rfl⟩ := hi
    simp only [lineStep] at hs
    split_ifs at hs with h1 h2 h3
    · cases hs
    · cases hs
    · exact h3.1.elim
    · obtain ⟨h4, h5⟩ := hname _ hs
      exact Or.inl ⟨[], d, rest, rfl, fun c hc => absurd hc (List.not_mem_nil), h4, h5, Or.inr ⟨h1, h2⟩⟩
  | closingCR =>
    simp only [lineStep] at hs
    split_ifs at hs <;> cases hs
  | name acc =>
    obtain ⟨n, rfl, rfl⟩ := hi
    obtain ⟨h4, h5⟩ := hname _ hs
    exact Or.inl ⟨n.bytes, d, rest, rfl, n.all, h4, h5, Or.inl n.nonempty⟩
  | blanks nm =>
    obtain ⟨n, raw, -, rfl, -⟩ := hi
    simp only [lineStep] at hs
    split_ifs at hs with h1
    · cases hs
    · obtain ⟨h2, h3, h4⟩ := hvalue _ _ hs
      exact Or.inr ⟨n, raw, d, rest, by simp [Content.bytes], h2, h3, h4⟩
  | value nm acc =>
    obtain ⟨x, hlater, rfl, -⟩ := hi
    obtain ⟨h2, h3, h4⟩ := hvalue _ _ hs
    cases x with
    | named n raw => exact Or.inr ⟨n, raw, d, rest, by simp [Content.bytes], h2, h3, h4⟩
    | continued raw hraw => exact absurd (hlater.resolve_left Bool.false_ne_true) (by simp [Content.isNamed])
  | valueCR nm acc =>
    simp only [lineStep] at hs
    split_ifs at hs <;> cases hs

/-- The header section stops with `token` and nothing reported: its first line is refused. -/
theorem refused_of_run {m k : Nat} {t rest : List Byte}
    (h : run headerStep m (headerStart m) t = ([], .halted (.error (.token, k)) rest)) : RefusedHeader t := by
  obtain ⟨a, d, o₁, o₂, s, rfl, ho, hi, hs⟩ := run_inv_halted (headerStep_preserved m) (headerStart_reads m) h
  obtain ⟨ls, tail, -, rfl, rfl, hmark, hphase⟩ := hi
  obtain ⟨hnil, -⟩ := List.append_eq_nil_iff.1 ho.symm
  obtain rfl : ls = [] := by
    cases ls with
    | nil => rfl
    | cons line ls => cases hnil
  obtain ⟨mark, phase⟩ := s
  obtain rfl : mark = m := hmark
  simp only [linesBytes, List.flatMap_nil, List.nil_append] at hs ⊢
  obtain ⟨-, -, o, hl⟩ := headerStep_error hs
  exact lineStep_token hphase hl rest

/-! ## Two readers of one text -/

/-- The call with this `lastPos` answers as the one from the very beginning. -/
def SameAnswer (l : StartLine) (b : List Byte) (lastPos : Nat) : Prop :=
  (answer l b lastPos).code = (answer l b 0).code ∧ (answer l b lastPos).lastPos = (answer l b 0).lastPos ∧
    (answer l b lastPos).events = (answer l b 0).events

/-- Neither reader gets past the first token: it may still go on for both, or both refuse it with `token`. -/
def Undistinguished {l : StartLine} (f : FirstToken l) (t : List Byte) : Prop :=
  (∀ c ∈ t, f.cls c = true ∧ tokenByte c = true) ∨
    (∃ w d rest, t = w ++ d :: rest ∧ (∀ c ∈ w, f.cls c = true) ∧ f.cls d = false ∧ d ≠ SP) ∧ RefusedHeader t

theorem Eol.length_ne_zero (eol : Eol) : eol.bytes.length ≠ 0 := by cases eol <;> decide

section

variable {l : StartLine}

/-- A call behind the empty line reads header lines. -/
theorem read_behind_eol (eol : Eol) (t : List Byte) :
    read l (eol.bytes ++ t) eol.bytes.length =
      inSnd (run headerStep eol.bytes.length (headerStart eol.bytes.length) t) := by
  rw [read_resume (Eol.length_ne_zero eol), List.drop_left' rfl]

theorem answer_of_live {b : List Byte} {lastPos : Nat} {s : HeadState l} (h : read l b lastPos = ([], .live s)) :
    answer l b lastPos = ⟨err .partialData, s.mark, []⟩ := by
  unfold answer
  rw [h]
  rfl

theorem answer_of_token {b rest : List Byte} {lastPos m : Nat}
    (h : read l b lastPos = ([], .halted (.error (.token, m)) rest)) :
    answer l b lastPos = ⟨err .token, m, []⟩ := by
  unfold answer
  rw [h]
  rfl

/-- The resumed call stops with `token` and no callback: the text is refused as a header line. -/
theorem refused_of_answer {eol : Eol} {t : List Byte}
    (hcode : (answer l (eol.bytes ++ t) eol.bytes.length).code = err .token)
    (hevents : (answer l (eol.bytes ++ t) eol.bytes.length).events = []) : RefusedHeader t := by
  unfold Answer.events answer at hevents
  unfold answer at hcode
  rw [read_behind_eol] at hcode hevents
  rcases hr : run headerStep eol.bytes.length (headerStart eol.bytes.length) t with ⟨o, s | ⟨⟨e, k⟩ | n, rest⟩⟩
  · rw [hr] at hcode
    exact absurd (err_inj.1 hcode) (by decide)
  · rw [hr] at hcode hevents
    obtain rfl := err_inj.1 (show err e = err .token from hcode)
    obtain rfl : o = [] := List.map_eq_nil_iff.1 (List.map_eq_nil_iff.1 hevents)
    exact refused_of_run hr
  · rw [hr] at hcode
    have hneg := err_neg .token
    rw [← hcode] at hneg
    exact absurd hneg (Int.not_lt.2 (Int.natCast_nonneg n))

/-- The resumed call reports nothing but headers. -/
theorem resumed_headers (eol : Eol) (t : List Byte) :
    ∀ e ∈ (answer l (eol.bytes ++ t) eol.bytes.length).events, e.isHeader = true := by
  obtain ⟨ls, tail, -, -, ho, -⟩ := run_header_lines eol.bytes.length t
  have hevents : (answer l (eol.bytes ++ t) eol.bytes.length).events = linesEvents eol.bytes.length ls := by
    rw [← headerCalls_events, headerCalls, ← ho]
    unfold Answer.events answer
    rw [read_behind_eol]
    rfl
  rw [hevents]
  exact linesEvents_isHeader

/-- A call that reads the start line as a header answers alike only where neither gets past the first token. -/
theorem undistinguished_of_same (f : FirstToken l) {eol : Eol} {t : List Byte}
    (h : SameAnswer l (eol.bytes ++ t) eol.bytes.length) : Undistinguished f t := by
  obtain ⟨hcode, -, hevents⟩ := h
  rcases all_or_split f.cls t with hall | ⟨w, d, rest, ht, hw, hd⟩
  · obtain ⟨s, hread, -⟩ := read_first_all f eol hall
    rw [answer_of_live hread] at hcode
    rcases all_or_split tokenByte t with htoken | ⟨w, d, rest, rfl, hw, hd⟩
    · exact Or.inl fun c hc => ⟨hall c hc, htoken c hc⟩
    · -- a byte that the first token may have, but no name
      obtain ⟨hCR, hLF, hcolon⟩ := f.plain d (hall d (by simp))
      obtain ⟨rest', hrefused⟩ := header_refused eol.bytes.length
        (Or.inl ⟨w, d, rest, rfl, hw, hd, hcolon, Or.inr ⟨hCR, hLF⟩⟩)
      have hresumed := read_behind_eol (l := l) eol (w ++ d :: rest)
      rw [hrefused] at hresumed
      rw [answer_of_token hresumed] at hcode
      exact absurd (err_inj.1 hcode) (by decide)
  by_cases hSP : d = SP
  · subst hSP
    by_cases hnil : w = []
    · -- a SP in front: refused by both, but not with the same error
      obtain ⟨e, he, hfresh⟩ := read_first_missing f eol rest
      have hrun := run_lineStart_blank eol.bytes.length (c := SP) rfl rest
      have hresumed := read_behind_eol (l := l) eol (SP :: rest)
      rw [headerStart, hrun] at hresumed
      subst hnil ht
      rw [List.nil_append, answer_of_token hresumed] at hcode
      exact absurd (err_inj.1 (hcode.trans hfresh)) he.symm
    · -- the first token is reported, and it is no header
      obtain ⟨x, hx, hno⟩ := read_first_reported f eol hw hnil rest
      rw [← ht] at hx
      have hmem : x.2.trim ∈ (answer l (eol.bytes ++ t) 0).events := by
        unfold Answer.events answer
        rw [List.map_map]
        exact List.mem_map_of_mem hx
      rw [← hevents] at hmem
      have hheader := resumed_headers eol t _ hmem
      rw [trim_of_not_header hno, hno] at hheader
      cases hheader
  · refine Or.inr ⟨⟨w, d, rest, ht, hw, hd, hSP⟩, ?_⟩
    subst ht
    rw [answer_of_token (read_first_refused f eol hw hd hSP rest)] at hcode hevents
    exact refused_of_answer hcode hevents

theorem same_of_undistinguished (f : FirstToken l) (eol : Eol) {t : List Byte} (h : Undistinguished f t) :
    SameAnswer l (eol.bytes ++ t) eol.bytes.length := by
  rcases h with hall | ⟨⟨w, d, rest, rfl, hw, hd, hSP⟩, hrefused⟩
  · obtain ⟨s, hread, hmark⟩ := read_first_all f eol fun c hc => (hall c hc).1
    obtain ⟨s', hrun, hmark'⟩ := header_all eol.bytes.length fun c hc => (hall c hc).2
    have hresumed := read_behind_eol (l := l) eol t
    rw [hrun] at hresumed
    rw [SameAnswer, answer_of_live hread, answer_of_live hresumed]
    exact ⟨rfl, hmark'.trans hmark.symm, rfl⟩
  · obtain ⟨rest', hrun⟩ := header_refused eol.bytes.length hrefused
    have hresumed := read_behind_eol (l := l) eol (w ++ d :: rest)
    rw [hrun] at hresumed
    rw [SameAnswer, answer_of_token (read_first_refused f eol hw hd hSP rest), answer_of_token hresumed]
    exact ⟨rfl, rfl, rfl⟩

end

/-! ## Two calls -/

/-- A call that stops inside the start line leaves the length of the empty line in front of it. -/
theorem lastPos_in_start_line {l : StartLine} {g : StartGrammar l} {b : List Byte}
    (hstart : ¬ ∃ q, StartLineEnd g.toStartSyntax b q) (hcode : (answer l b 0).code = err .partialData) :
    (∀ (eol : Eol) (t : List Byte), b = eol.bytes ++ t → (answer l b 0).lastPos = eol.bytes.length) ∧
      (¬ StartsWithEol b → (answer l b 0).lastPos = 0) := by
  obtain ⟨o, s, hread⟩ := code_partial_iff.1 hcode
  have hlast : (answer l b 0).lastPos = s.mark := by
    unfold answer
    rw [hread]
    rfl
  rw [hlast]
  have hi := read_live (g := g) hread
  rcases s with (_ | _ | ⟨m, t⟩) | s
  · obtain ⟨rfl, -⟩ := hi
    refine ⟨fun eol t h => ?_, fun _ => rfl⟩
    exact absurd (List.append_eq_nil_iff.1 h.symm).1 fun hnil => Eol.length_ne_zero eol (by rw [hnil]; rfl)
  · obtain ⟨rfl, -⟩ := hi
    refine ⟨fun eol t h => ?_, fun _ => rfl⟩
    cases eol <;> cases h
  · obtain ⟨lead, w, o', rfl, rfl, -, -, hfirst⟩ := hi
    cases lead with
    | none =>
      obtain ⟨c, cs, hw, hc⟩ := hfirst rfl
      rw [hw]
      exact ⟨fun eol t h => absurd ⟨eol, t, h.symm⟩ (not_startsWithEol hc), fun _ => rfl⟩
    | some eol =>
      refine ⟨fun eol' t h => ?_, fun hnot => absurd ⟨eol, w, rfl⟩ hnot⟩
      obtain ⟨rfl, -⟩ := eol_unique h
      rfl
  · obtain ⟨lead, ph, w, o', rfl, -⟩ := hi
    exact absurd ⟨_, lead, ph, w, rfl, rfl⟩ hstart

/-- Without an LF no start line ends. -/
theorem no_startLineEnd {l : StartLine} {g : StartGrammar l} {b : List Byte} (hb : LF ∉ b) :
    ¬ ∃ q, StartLineEnd g.toStartSyntax b q := by
  rintro ⟨q, lead, ph, rest, rfl, -⟩
  obtain ⟨c, cs, hph, -⟩ := g.first ph
  rcases g.ended ph with hnil | ⟨a, ha⟩
  · rw [hph] at hnil
    cases hnil
  · rw [ha] at hb
    exact hb (by simp)

/-- The second of two calls does what one call on its buffer does, whatever application listens that rejects nothing. -/
def EndsAsOneCall (entry : Entry) (simd : Simd) (b x : List Byte) : Prop :=
  ∀ (σ : Type) (h : Handler σ), h.NeverRejects → ∀ s, ∀ c ∈ (entry.session simd h [b, b ++ x] 0 s).getLast?,
    c.report.result = (entry.observe simd h (b ++ x) 0 s).result ∧
      c.report.calls = (entry.observe simd h (b ++ x) 0 s).calls

/-- The call leaves `lastPos` at 0. -/
def KeepsLastPos (entry : Entry) (simd : Simd) (b : List Byte) : Prop :=
  ∀ (σ : Type) (h : Handler σ), h.NeverRejects → ∀ s code n, (entry.observe simd h b 0 s).result = .ok (code, n) → n = 0

theorem keepsLastPos_iff (entry : Entry) (simd : Simd) {b : List Byte} (hb : b.length < 2 ^ 31) :
    KeepsLastPos entry simd b ↔ (answer entry.line b 0).lastPos = 0 := by
  constructor
  · intro h
    have hn := Handler.recorder_neverRejects
    exact h PUnit Handler.recorder hn ⟨⟩ _ _ (entry.observe_accepting simd hn hb (Nat.zero_le _) _).1
  · intro h0 σ h hn s code n hres
    rw [(entry.observe_accepting simd hn hb (Nat.zero_le _) s).1] at hres
    cases hres
    exact h0

theorem endsAsOneCall_iff (entry : Entry) (simd : Simd) {b x : List Byte} (hlen : (b ++ x).length < 2 ^ 31) :
    EndsAsOneCall entry simd b x ↔ SameAnswer entry.line (b ++ x) (answer entry.line b 0).lastPos := by
  have hle : b.length ≤ (b ++ x).length := (List.prefix_append _ _).length_le
  have hb : b.length < 2 ^ 31 := by omega
  have hpos : (answer entry.line b 0).lastPos ≤ (b ++ x).length :=
    (read_marks entry.grammar b (Nat.zero_le _)).2.trans hle
  have hlast : ∀ {σ : Type} {h : Handler σ}, h.NeverRejects → ∀ s,
      (entry.session simd h [b, b ++ x] 0 s).getLast? = some ⟨b ++ x, (answer entry.line b 0).lastPos,
        entry.observe simd h (b ++ x) (answer entry.line b 0).lastPos (entry.observe simd h b 0 s).state⟩ := by
    intro σ h hn s
    rw [Entry.session_cons (entry.observe_accepting simd hn hb (Nat.zero_le _) s).1,
      Entry.session_cons (entry.observe_accepting simd hn hlen hpos _).1]
    rfl
  constructor
  · intro h
    have hn := Handler.recorder_neverRejects
    obtain ⟨hres, hcalls⟩ := h PUnit Handler.recorder hn ⟨⟩ _ (hlast hn _)
    obtain ⟨hres₁, hcalls₁⟩ := entry.observe_accepting simd hn hlen hpos
      (entry.observe simd Handler.recorder b 0 ⟨⟩).state
    obtain ⟨hres₀, hcalls₀⟩ := entry.observe_accepting simd hn hlen (Nat.zero_le _) ⟨⟩
    have hall : ∀ es, Handler.recorder.hears es = es := fun es => List.filter_eq_self.2 fun _ _ => rfl
    simp only [hres₀, hres₁, hcalls₀, hcalls₁, hall, Except.ok.injEq, Prod.mk.injEq] at hres hcalls
    exact ⟨hres.1, hres.2, hcalls⟩
  · rintro ⟨hcode, hpos', hevents⟩ σ h hn s c hc
    rw [hlast hn] at hc
    obtain rfl := Option.some.inj hc
    obtain ⟨hres₁, hcalls₁⟩ := entry.observe_accepting simd hn hlen hpos (entry.observe simd h b 0 s).state
    obtain ⟨hres₀, hcalls₀⟩ := entry.observe_accepting simd hn hlen (Nat.zero_le _) s
    simp only [hres₀, hres₁, hcalls₀, hcalls₁, hcode, hpos', hevents, and_self]

/-- **Resuming inside the start line.** After a call that has asked for more inside the start line, `lastPos` is
still 0 and the next call does what one call would, unless the buffer begins with an empty line. If it does,
the next call reads the start line as a header, and still does what one call would only where neither gets
past the first token. -/
theorem resume_in_start_line (entry : Entry) (simd : Simd) {h : Handler σ} (hn : h.NeverRejects) {b x : List Byte}
    (hlen : (b ++ x).length < 2 ^ 31) (s : σ) (hmore : (entry.observe simd h b 0 s).code = .ok (err .partialData))
    (hstart : ¬ ∃ q, StartLineEnd entry.grammar.toStartSyntax b q) :
    (EndsAsOneCall entry simd b x ∧ KeepsLastPos entry simd b ↔ ¬ StartsWithEol b) ∧
      (EndsAsOneCall entry simd b x ↔
        ∀ (eol : Eol) (t : List Byte), b = eol.bytes ++ t → Undistinguished entry.first (t ++ x)) := by
  have hb : b.length < 2 ^ 31 := by
    rw [List.length_append] at hlen
    omega
  rw [entry.observe_code simd hn hb (Nat.zero_le _) s] at hmore
  obtain ⟨hbehind, hfront⟩ := lastPos_in_start_line hstart (Except.ok.inj hmore)
  rw [endsAsOneCall_iff entry simd hlen, keepsLastPos_iff entry simd hb]
  constructor
  · constructor
    · rintro ⟨-, h0⟩ ⟨eol, t, ht⟩
      rw [hbehind eol t ht.symm] at h0
      exact Eol.length_ne_zero eol h0
    · intro hnot
      rw [hfront hnot]
      exact ⟨⟨rfl, rfl, rfl⟩, rfl⟩
  · constructor
    · intro hsame eol t ht
      rw [hbehind eol t ht, ht, List.append_assoc] at hsame
      exact undistinguished_of_same entry.first hsame
    · intro hall
      by_cases hEol : StartsWithEol b
      · obtain ⟨eol, t, ht⟩ := hEol
        rw [hbehind eol t ht.symm, ← ht, List.append_assoc]
        exact same_of_undistinguished entry.first eol (hall eol t ht.symm)
      · rw [hfront hEol]
        exact ⟨rfl, rfl, rfl⟩

/-- A request line cut inside its version. -/
theorem resume_in_start_line_version :
    EndsAsOneCall .request .unrolled (ascii "GET / HTT") (ascii "P/1.1\r\n\r\n") ∧
      KeepsLastPos .request .unrolled (ascii "GET / HTT") := by
  refine (resume_in_start_line .request .unrolled Handler.recorder_neverRejects (b := ascii "GET / HTT") (by decide) ()
    (by decide +kernel) (no_startLineEnd (by decide))).1.2 ?_
  exact not_startsWithEol (by decide)

/-- One call completes; of two calls, cut inside the method, the second ends with the error `token`. -/
theorem resume_in_start_line_emptyLine :
    (Entry.request.session .unrolled Handler.recorder [ascii "\r\nGET", ascii "\r\nGET / HTTP/1.1\r\n\r\n"] 0 ()).map
        (fun c => c.report.result) = [.ok (err .partialData, 2), .ok (err .token, 2)] ∧
      (Entry.request.observe .unrolled Handler.recorder (ascii "\r\nGET / HTTP/1.1\r\n\r\n") 0 ()).result =
        .ok (20, 20) := by
  constructor <;> decide +kernel

end Httparsed
