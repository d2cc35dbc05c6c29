import Httparsed.Reads

/-!
# What the reader of a whole head has read

The invariants of the start line and of the header section, put together. `StartGrammar` is what the two
entry points differ in: a start line with a grammar that its reader reads exactly.
-/

namespace Httparsed

open Transducer Grammar

/-- A start line whose reader reads the phrases of a grammar, and nothing else. -/
structure StartGrammar (l : StartLine) extends StartSyntax where
  Reads : Nat → List Byte → List (Event Slice) → l.State → Prop
  begins : ∀ p, Reads p [] [] (l.start p)
  reads : ∀ p, Preserved l.step p (Reads p)
  phrase : ∀ p w o s c o' u, Reads p w o s → l.step (p + w.length) s c = (o', .halt (.ok u)) →
    ∃ ph, w ++ [c] = bytes ph ∧ o ++ o' = events p ph
  first : ∀ ph, ∃ c cs, bytes ph = c :: cs ∧ c ≠ CR ∧ c ≠ LF
  complete : ∀ p ph rest, run l.step p (l.start p) (bytes ph ++ rest) = (events p ph, .halted (.ok ⟨⟩) rest)

/-- The callbacks of a start line are no header callbacks. -/
theorem StartGrammar.notHeader {l : StartLine} (g : StartGrammar l) (p : Nat) (ph : g.Phrase) :
    ∀ e ∈ g.events p ph, e.isHeader = false := by
  have hout := run_outputs (Q := fun e : Event Slice => e.isHeader = false) l.notHeader p (l.start p) (g.bytes ph ++ [])
  rwa [g.complete] at hout

/-! ## Reading a phrase -/

theorem foldl_push (w : List Byte) (acc : Slice) : w.foldl Slice.push acc = ⟨acc.ptr, acc.bytes ++ w⟩ := by
  induction w generalizing acc with
  | nil => simp
  | cons c w ih => rw [List.foldl_cons, ih]; simp

/-- Bytes that a state only collects. -/
theorem run_collect {σ ν : Type} {step : Step σ Byte (Event Slice) ν} (phase : Slice → σ) {P : Byte → Bool}
    (hstep : ∀ p acc c, P c = true → step p (phase acc) c = ([], .more (phase (acc.push c))))
    {w : List Byte} (hw : ∀ c ∈ w, P c = true) (p : Nat) (acc : Slice) (rest : List Byte) :
    run step p (phase acc) (w ++ rest) = run step (p + w.length) (phase ⟨acc.ptr, acc.bytes ++ w⟩) rest := by
  rw [run_segment phase hstep hw, foldl_push]

/-- Bytes that a state ignores. -/
theorem run_ignore {σ ν : Type} {step : Step σ Byte (Event Slice) ν} {s : σ} {P : Byte → Bool}
    (hstep : ∀ p c, P c = true → step p s c = ([], .more s))
    {w : List Byte} (hw : ∀ c ∈ w, P c = true) (p : Nat) (rest : List Byte) :
    run step p s (w ++ rest) = run step (p + w.length) s rest :=
  run_segment (fun _ : Unit => s) (f := fun u _ => u) (fun p _ c hc => hstep p c hc) hw p () rest

theorem Word.exists_cons {P : Byte → Bool} (w : Word P) :
    ∃ c cs, w.bytes = c :: cs ∧ P c = true ∧ ∀ d ∈ cs, P d = true := by
  cases hw : w.bytes with
  | nil => exact absurd hw w.nonempty
  | cons c cs =>
    have hall := w.all
    rw [hw] at hall
    exact ⟨c, cs, rfl, hall c (List.mem_cons_self ..), fun d hd => hall d (List.mem_cons_of_mem _ hd)⟩

/-- No byte of these classes is a SP or ends a line. -/
theorem tokenByte_plain {c : Byte} (h : tokenByte c = true) : c ≠ SP ∧ c ≠ HT ∧ c ≠ CR ∧ c ≠ LF ∧ c ≠ COLON := by
  refine ⟨?_, ?_, ?_, ?_, ?_⟩ <;> rintro rfl <;> exact absurd h (by decide)

theorem uriByte_plain {c : Byte} (h : uriByte c = true) : c ≠ SP ∧ c ≠ CR ∧ c ≠ LF := by
  refine ⟨?_, ?_, ?_⟩ <;> rintro rfl <;> exact absurd h (by decide)

theorem versionByte_plain {c : Byte} (h : versionByte c = true) : c ≠ SP ∧ c ≠ CR ∧ c ≠ LF := by
  refine ⟨?_, ?_, ?_⟩ <;> rintro rfl <;> exact absurd h (by decide)

theorem textByte_plain {c : Byte} (h : textByte c = true) : c ≠ CR ∧ c ≠ LF := by
  refine ⟨?_, ?_⟩ <;> rintro rfl <;> exact absurd h (by decide)

theorem digit_plain {c : Byte} (h : isDigit c = true) : c ≠ SP ∧ c ≠ CR ∧ c ≠ LF := by
  refine ⟨?_, ?_, ?_⟩ <;> rintro rfl <;> exact absurd h (by decide)

/-- A token ends on a SP, and further SPs are skipped. -/
theorem run_spaces {σ ν : Type} {step : Step σ Byte (Event Slice) ν} {last : σ} (spaces : σ)
    {o : List (Event Slice)} (hend : ∀ p, step p last SP = (o, .more spaces))
    (hspace : ∀ p, step p spaces SP = ([], .more spaces)) (p : Nat) (g : Spaces) (rest : List Byte) :
    run step p last (g.bytes ++ rest) = prepend o (run step (p + g.bytes.length) spaces rest) := by
  obtain ⟨sp, gs, hg, hsp, hgs⟩ := Word.exists_cons g
  obtain rfl : sp = SP := by simpa using hsp
  have hlen : p + g.bytes.length = p + 1 + gs.length := by
    rw [hg, List.length_cons]
    omega
  have hskip : run step (p + 1) spaces (gs ++ rest) = run step (p + 1 + gs.length) spaces rest := by
    refine run_ignore (P := (· == SP)) ?_ hgs (p + 1) rest
    intro q d hd
    obtain rfl : d = SP := by simpa using hd
    exact hspace q
  rw [hlen, hg, List.cons_append, run_more (hend p), hskip]

/-- The byte after the SPs starts the next token. -/
theorem run_gap {σ ν : Type} {step : Step σ Byte (Event Slice) ν} {last : σ} (spaces : σ)
    (next : Slice → σ) {o : List (Event Slice)} (hend : ∀ p, step p last SP = (o, .more spaces))
    (hspace : ∀ p, step p spaces SP = ([], .more spaces))
    (hnext : ∀ p c, c ≠ SP → c ≠ CR → c ≠ LF → step p spaces c = step p (next ⟨p, []⟩) c)
    (p : Nat) (g : Spaces) {c : Byte} (hc : c ≠ SP ∧ c ≠ CR ∧ c ≠ LF) (cs : List Byte) :
    run step p last (g.bytes ++ c :: cs) =
      prepend o (run step (p + g.bytes.length) (next ⟨p + g.bytes.length, []⟩) (c :: cs)) := by
  rw [run_spaces spaces hend hspace, run_cons_congr (hnext _ c hc.1 hc.2.1 hc.2.2)]

/-- The end of a start line. -/
theorem run_eol {σ : Type} {step : Step σ Byte (Event Slice) (Except ParserError PUnit)} {last : σ} (lineCR : σ)
    {o : List (Event Slice)} (hCR : ∀ p, step p last CR = (o, .more lineCR))
    (hLF : ∀ p, step p last LF = (o, .halt (.ok ⟨⟩))) (hCRLF : ∀ p, step p lineCR LF = ([], .halt (.ok ⟨⟩)))
    (p : Nat) (eol : Eol) (rest : List Byte) :
    run step p last (eol.bytes ++ rest) = (o, .halted (.ok ⟨⟩) rest) := by
  cases eol with
  | crlf =>
    show run step p last (CR :: LF :: rest) = _
    rw [run_more (hCR p), run_halt (hCRLF _)]
    simp [prepend]
  | lf => exact run_halt (hLF p) rest

/-! ## The two start lines -/

/-- The tokens of a request line, each from its first byte on. -/
theorem run_method (p : Nat) (m : Word tokenByte) (rest : List Byte) :
    run requestStep p (.method ⟨p, []⟩) (m.bytes ++ rest) =
      run requestStep (p + m.bytes.length) (.method ⟨p, m.bytes⟩) rest :=
  run_collect RequestState.method (fun _ _ _ h => by simp only [requestStep, stepMethod, h, ↓reduceIte])
    m.all p ⟨p, []⟩ rest

theorem run_uri (p : Nat) (u : Word uriByte) (rest : List Byte) :
    run requestStep p (.uri ⟨p, []⟩) (u.bytes ++ rest) =
      run requestStep (p + u.bytes.length) (.uri ⟨p, u.bytes⟩) rest :=
  run_collect RequestState.uri (fun _ _ _ h => by simp only [requestStep, stepUri, h, ↓reduceIte])
    u.all p ⟨p, []⟩ rest

theorem run_version (p : Nat) (v : Word versionByte) (rest : List Byte) :
    run requestStep p (.version ⟨p, []⟩) (v.bytes ++ rest) =
      run requestStep (p + v.bytes.length) (.version ⟨p, v.bytes⟩) rest :=
  run_collect RequestState.version (fun _ _ _ h => by simp only [requestStep, stepVersion, h, ↓reduceIte])
    v.all p ⟨p, []⟩ rest

/-- The SP that ends a method. -/
theorem requestStep_methodEnd (p q : Nat) (m : Word tokenByte) :
    requestStep p (.method ⟨q, m.bytes⟩) SP = ([.onMethod ⟨q, m.bytes⟩], .more .methodSpaces) := by
  simp only [requestStep, stepMethod, if_neg m.nonempty]
  rfl

/-- The method of a request line and the SPs after it. -/
theorem run_methodSpaces (p : Nat) (m : Word tokenByte) (g : Spaces) (rest : List Byte) :
    run requestStep p (.method ⟨p, []⟩) (m.bytes ++ (g.bytes ++ rest)) =
      prepend [.onMethod ⟨p, m.bytes⟩] (run requestStep (p + m.bytes.length + g.bytes.length) .methodSpaces rest) := by
  rw [run_method]
  exact run_spaces RequestState.methodSpaces (fun q => requestStep_methodEnd q p m) (fun _ => rfl)
    (p + m.bytes.length) g rest

/-- The uri and the SPs after it. -/
theorem run_uriSpaces (p : Nat) (u : Word uriByte) (g : Spaces) (rest : List Byte) :
    run requestStep p (.uri ⟨p, []⟩) (u.bytes ++ (g.bytes ++ rest)) =
      prepend [.onUri ⟨p, u.bytes⟩] (run requestStep (p + u.bytes.length + g.bytes.length) .uriSpaces rest) := by
  rw [run_uri]
  exact run_spaces RequestState.uriSpaces (fun _ => rfl) (fun _ => rfl) (p + u.bytes.length) g rest

/-- After the SPs the next token starts. -/
theorem requestStep_methodSpaces {c : Byte} (hc : c ≠ SP ∧ c ≠ CR ∧ c ≠ LF) (p : Nat) :
    requestStep p .methodSpaces c = requestStep p (.uri ⟨p, []⟩) c := by
  simp only [requestStep, if_neg (not_or.2 hc.2), if_neg hc.1]

theorem requestStep_uriSpaces {c : Byte} (hc : c ≠ SP ∧ c ≠ CR ∧ c ≠ LF) (p : Nat) :
    requestStep p .uriSpaces c = requestStep p (.version ⟨p, []⟩) c := by
  simp only [requestStep, if_neg (not_or.2 hc.2), if_neg hc.1]

/-- The reader of request lines reads every request line. -/
theorem run_requestLine (p : Nat) (l : RequestLine) (rest : List Byte) :
    run requestStep p (.method ⟨p, []⟩) (l.bytes ++ rest) = (l.events p, .halted (.ok ⟨⟩) rest) := by
  obtain ⟨m, g, u, g', v, eol⟩ := l
  obtain ⟨c, cs, hu, hc, -⟩ := Word.exists_cons u
  obtain ⟨d, ds, hv, hd, -⟩ := Word.exists_cons v
  have hmethod : ∀ r, run requestStep p (.method ⟨p, []⟩) (m.bytes ++ (g.bytes ++ (u.bytes ++ r))) =
      prepend [.onMethod ⟨p, m.bytes⟩] (run requestStep (p + m.bytes.length + g.bytes.length)
        (.uri ⟨p + m.bytes.length + g.bytes.length, []⟩) (u.bytes ++ r)) := by
    intro r
    rw [run_methodSpaces, hu, List.cons_append, run_cons_congr (requestStep_methodSpaces (uriByte_plain hc) _)]
  have huri : ∀ q r, run requestStep q (.uri ⟨q, []⟩) (u.bytes ++ (g'.bytes ++ (v.bytes ++ r))) =
      prepend [.onUri ⟨q, u.bytes⟩] (run requestStep (q + u.bytes.length + g'.bytes.length)
        (.version ⟨q + u.bytes.length + g'.bytes.length, []⟩) (v.bytes ++ r)) := by
    intro q r
    rw [run_uriSpaces, hv, List.cons_append, run_cons_congr (requestStep_uriSpaces (versionByte_plain hd) _)]
  have heol : ∀ q k, run requestStep q (.version ⟨k, v.bytes⟩) (eol.bytes ++ rest) =
      ([.onVersion ⟨k, v.bytes⟩], .halted (.ok ⟨⟩) rest) := fun q k =>
    run_eol .versionCR (fun _ => rfl) (fun _ => rfl) (fun _ => rfl) q eol rest
  simp only [RequestLine.bytes, List.append_assoc]
  rw [hmethod, huri, run_version, heol]
  simp [prepend, RequestLine.events, RequestLine.uriOffset, RequestLine.versionOffset, Nat.add_assoc]

/-- The code is held until the byte after it: a SP, a CR or an LF starts the text. -/
theorem run_code (p : Nat) (k : Code) {c : Byte} (hc : c = SP ∨ c = CR ∨ c = LF) (cs : List Byte) :
    run statusStep p (.code ⟨p, []⟩) (k.bytes ++ c :: cs) =
      prepend [.onStatus k.value] (run statusStep (p + k.bytes.length) (.text ⟨p + k.bytes.length, []⟩) (c :: cs)) := by
  have h₁ : statusStep p (.code ⟨p, []⟩) k.d₁ = ([], .more (.code ⟨p, [k.d₁]⟩)) := rfl
  have h₂ : statusStep (p + 1) (.code ⟨p, [k.d₁]⟩) k.d₂ = ([], .more (.code ⟨p, [k.d₁, k.d₂]⟩)) := rfl
  have h₃ : statusStep (p + 1 + 1) (.code ⟨p, [k.d₁, k.d₂]⟩) k.d₃ = ([], .more (.code ⟨p, k.bytes⟩)) := rfl
  have h₄ : statusStep (p + 3) (.code ⟨p, k.bytes⟩) c =
      ([.onStatus k.value] ++ (statusStep (p + 3) (.text ⟨p + 3, []⟩) c).1,
        (statusStep (p + 3) (.text ⟨p + 3, []⟩) c).2) := stepCode_digits rfl hc
  show run statusStep p (.code ⟨p, []⟩) (k.d₁ :: k.d₂ :: k.d₃ :: c :: cs) = _
  rw [run_more h₁, run_more h₂, run_more h₃, prepend_nil, prepend_nil, prepend_nil]
  exact run_cons_prepend h₄ cs

/-- The version of a status line and the SPs after it; the next byte starts the code. -/
theorem run_statusVersion (p : Nat) (v : Word versionByte) (g : Spaces) {c : Byte} (hc : c ≠ SP ∧ c ≠ CR ∧ c ≠ LF)
    (cs : List Byte) :
    run statusStep p (.version ⟨p, []⟩) (v.bytes ++ (g.bytes ++ c :: cs)) =
      prepend [.onVersion ⟨p, v.bytes⟩] (run statusStep (p + v.bytes.length + g.bytes.length)
        (.code ⟨p + v.bytes.length + g.bytes.length, []⟩) (c :: cs)) := by
  have hversion : ∀ r, run statusStep p (.version ⟨p, []⟩) (v.bytes ++ r) =
      run statusStep (p + v.bytes.length) (.version ⟨p, v.bytes⟩) r :=
    run_collect StatusState.version
      (fun _ _ _ h => by simp only [statusStep, stepStatusVersion, h, ↓reduceIte]) v.all p ⟨p, []⟩
  rw [hversion]
  refine run_gap .versionSpaces StatusState.code ?_ (fun _ => rfl) ?_ (p + v.bytes.length) g hc cs
  · intro q
    simp only [statusStep, stepStatusVersion, if_neg v.nonempty]
    rfl
  · intro q b h1 h2 h3
    simp only [statusStep, if_neg (not_or.2 ⟨h2, h3⟩), if_neg h1]

/-- The reader of status lines reads every status line. -/
theorem run_statusLine (p : Nat) (l : StatusLine) (rest : List Byte) :
    run statusStep p (.version ⟨p, []⟩) (l.bytes ++ rest) = (l.events p, .halted (.ok ⟨⟩) rest) := by
  obtain ⟨v, g, k, t, ht, eol⟩ := l
  have hversion : ∀ r, run statusStep p (.version ⟨p, []⟩) (v.bytes ++ (g.bytes ++ (k.bytes ++ r))) =
      prepend [.onVersion ⟨p, v.bytes⟩] (run statusStep (p + v.bytes.length + g.bytes.length)
        (.code ⟨p + v.bytes.length + g.bytes.length, []⟩) (k.bytes ++ r)) := fun r =>
    run_statusVersion p v g (digit_plain k.digit₁) _
  have hcode : ∀ q, run statusStep q (.code ⟨q, []⟩) (k.bytes ++ (t.bytes ++ (eol.bytes ++ rest))) =
      prepend [.onStatus k.value] (run statusStep (q + k.bytes.length) (.text ⟨q + k.bytes.length, []⟩)
        (t.bytes ++ (eol.bytes ++ rest))) := by
    intro q
    obtain ⟨c, cs, hcons, hc⟩ : ∃ c cs, t.bytes ++ (eol.bytes ++ rest) = c :: cs ∧ (c = SP ∨ c = CR ∨ c = LF) := by
      cases htb : t.bytes with
      | nil =>
        cases eol with
        | crlf => exact ⟨CR, LF :: rest, rfl, Or.inr (Or.inl rfl)⟩
        | lf => exact ⟨LF, rest, rfl, Or.inr (Or.inr rfl)⟩
      | cons c cs => exact ⟨c, _, rfl, Or.inl (ht c (by rw [htb]; rfl))⟩
    rw [hcons]
    exact run_code q k hc cs
  have htext : ∀ q r, run statusStep q (.text ⟨q, []⟩) (t.bytes ++ r) =
      run statusStep (q + t.bytes.length) (.text ⟨q, t.bytes⟩) r := fun q =>
    run_collect StatusState.text
      (fun _ _ _ h => by simp only [statusStep, stepText, h, ↓reduceIte]) t.all q ⟨q, []⟩
  have heol : ∀ q k, run statusStep q (.text ⟨k, t.bytes⟩) (eol.bytes ++ rest) =
      (statusMsgEvents ⟨k, t.bytes⟩, .halted (.ok ⟨⟩) rest) := fun q k =>
    run_eol .textCR (fun _ => rfl) (fun _ => rfl) (fun _ => rfl) q eol rest
  simp only [StatusLine.bytes, List.append_assoc]
  rw [hversion, hcode, htext, heol]
  simp only [prepend, StatusLine.events, StatusLine.reason, StatusLine.textOffset, statusMsgEvents, List.length_append,
    Nat.add_assoc]
  rfl

theorem RequestLine.first (l : RequestLine) : ∃ c cs, l.bytes = c :: cs ∧ c ≠ CR ∧ c ≠ LF := by
  obtain ⟨c, cs, hm, hc, -⟩ := Word.exists_cons l.method
  obtain ⟨-, -, h1, h2, -⟩ := tokenByte_plain hc
  exact ⟨c, l.bytes.tail, by simp only [RequestLine.bytes, hm, List.cons_append, List.tail_cons], h1, h2⟩

theorem StatusLine.first (l : StatusLine) : ∃ c cs, l.bytes = c :: cs ∧ c ≠ CR ∧ c ≠ LF := by
  obtain ⟨c, cs, hv, hc, -⟩ := Word.exists_cons l.version
  obtain ⟨-, h1, h2⟩ := versionByte_plain hc
  exact ⟨c, l.bytes.tail, by simp only [StatusLine.bytes, hv, List.cons_append, List.tail_cons], h1, h2⟩

def requestGrammar : StartGrammar requestLine where
  toStartSyntax := requestSyntax
  Reads := fun p w o s => RequestState.Reads p w o s
  begins := fun _ => ⟨rfl, by simp, rfl⟩
  reads := fun _ _ _ _ _ _ _ hi hs => requestStep_reads hi hs
  phrase := fun _ _ _ _ _ _ _ hi hs => requestStep_phrase hi hs
  first := RequestLine.first
  complete := run_requestLine

def statusGrammar : StartGrammar statusLine where
  toStartSyntax := statusSyntax
  Reads := fun p w o s => StatusState.Reads p w o s
  begins := fun _ => ⟨rfl, by simp, rfl⟩
  reads := fun _ _ _ _ _ _ _ hi hs => statusStep_reads hi hs
  phrase := fun _ _ _ _ _ _ _ hi hs => statusStep_phrase hi hs
  first := StatusLine.first
  complete := run_statusLine

def Entry.grammar : (entry : Entry) → StartGrammar entry.line
  | .request => requestGrammar
  | .response => statusGrammar

/-! ## The header section -/

/-- A name, from the start of its line on. -/
theorem run_name (p : Nat) {hasHeader : Bool} {w : List Byte} (hw : ∀ c ∈ w, tokenByte c = true)
    {c : Byte} {cs : List Byte}
    (hfirst : w ≠ [] ∨ (c ≠ CR ∧ c ≠ LF ∧ (hasHeader = true → blank c = false))) :
    run lineStep p (.lineStart hasHeader) (w ++ c :: cs) = run lineStep (p + w.length) (.name ⟨p, w⟩) (c :: cs) := by
  have hcollect : run lineStep p (.name ⟨p, []⟩) (w ++ c :: cs) =
      run lineStep (p + w.length) (.name ⟨p, w⟩) (c :: cs) :=
    run_collect HeaderPhase.name (fun _ _ _ h => by simp only [lineStep, stepName, h, ↓reduceIte])
      hw p ⟨p, []⟩ (c :: cs)
  have hstep : ∀ d, d ≠ CR → d ≠ LF → (hasHeader = true → blank d = false) →
      lineStep p (.lineStart hasHeader) d = lineStep p (.name ⟨p, []⟩) d := by
    intro d h1 h2 h3
    have hno : ¬ (hasHeader = true ∧ (d = SP ∨ d = HT)) := fun h => blank_false_iff.1 (h3 h.1) h.2
    simp only [lineStep, if_neg h1, if_neg h2, if_neg hno]
  rw [← hcollect]
  cases w with
  | nil =>
    obtain ⟨h1, h2, h3⟩ := hfirst.resolve_left (fun h => h rfl)
    exact run_cons_congr (hstep c h1 h2 h3) cs
  | cons d w =>
    obtain ⟨h1, h2, h3, h4, -⟩ := tokenByte_plain (hw d (List.mem_cons_self ..))
    refine run_cons_congr (hstep d h3 h4 fun _ => ?_) _
    rw [blank_false_iff]
    exact fun h => h.elim h1 h2

/-- The text of a value. -/
theorem run_text (p : Nat) (nm : Option Slice) {w : List Byte} (hw : ∀ c ∈ w, textByte c = true) (rest : List Byte) :
    run lineStep p (.value nm ⟨p, []⟩) (w ++ rest) = run lineStep (p + w.length) (.value nm ⟨p, w⟩) rest :=
  run_collect (HeaderPhase.value nm) (fun _ _ _ h => by simp only [lineStep, stepValue, h, ↓reduceIte])
    hw p ⟨p, []⟩ rest

/-- The blanks after the colon, then the text of the value. -/
theorem run_blanks (p : Nat) (nm : Slice) (raw : Text textByte) {c : Byte} (hc : blank c = false) (cs : List Byte) :
    run lineStep p (.blanks nm) (raw.bytes ++ c :: cs) = run lineStep (p + raw.bytes.length)
      (.value (some nm) (Slice.stripLeading blank ⟨p, raw.bytes⟩)) (c :: cs) := by
  have hblank : ∀ c ∈ raw.bytes.takeWhile blank, blank c = true := fun c hc => List.mem_takeWhile_imp hc
  have htext : ∀ c ∈ raw.bytes.dropWhile blank, textByte c = true := fun c hc =>
    raw.all c ((List.dropWhile_sublist blank).subset hc)
  have hskip : ∀ r, run lineStep p (.blanks nm) (raw.bytes.takeWhile blank ++ r) =
      run lineStep (p + (raw.bytes.takeWhile blank).length) (.blanks nm) r := fun r =>
    run_ignore (fun _ c h => by simp only [lineStep, if_pos (blank_iff.1 h)]) hblank p r
  have hsame : ∀ q c, blank c = false → lineStep q (.blanks nm) c = lineStep q (.value (some nm) ⟨q, []⟩) c := by
    intro q c hc
    simp only [lineStep, if_neg (blank_false_iff.1 hc)]
  have hnext : ∃ d ds, raw.bytes.dropWhile blank ++ c :: cs = d :: ds ∧ blank d = false := by
    cases hd : raw.bytes.dropWhile blank with
    | nil => exact ⟨c, cs, rfl, hc⟩
    | cons d ds =>
      have hne : raw.bytes.dropWhile blank ≠ [] := by rw [hd]; exact List.cons_ne_nil _ _
      have hhead := List.head_dropWhile_not blank hne
      simp only [hd, List.head_cons] at hhead
      exact ⟨d, ds ++ c :: cs, rfl, hhead⟩
  have hsplit : raw.bytes ++ c :: cs = raw.bytes.takeWhile blank ++ (raw.bytes.dropWhile blank ++ c :: cs) := by
    rw [← List.append_assoc, List.takeWhile_append_dropWhile]
  have hlen : p + (raw.bytes.takeWhile blank).length + (raw.bytes.dropWhile blank).length = p + raw.bytes.length := by
    rw [Nat.add_assoc, ← List.length_append, List.takeWhile_append_dropWhile]
  obtain ⟨d, ds, hcons, hd⟩ := hnext
  rw [hsplit, hskip, hcons, run_cons_congr (hsame _ d hd), ← hcons, run_text _ _ htext, hlen]
  rfl

/-- The text of a continuation line. -/
theorem run_continuation (p : Nat) (raw : Word textByte) (hraw : ∀ c ∈ raw.bytes.head?, blank c = true)
    (post : List Byte) :
    run lineStep p (.lineStart true) (raw.bytes ++ post) =
      run lineStep (p + raw.bytes.length) (.value none ⟨p, raw.bytes⟩) post := by
  obtain ⟨c, cs, hw, -, -⟩ := Word.exists_cons raw
  have hb : blank c = true := hraw c (by rw [hw]; rfl)
  have hsame : lineStep p (.lineStart true) c = lineStep p (.value none ⟨p, []⟩) c := by
    have h1 : c ≠ CR ∧ c ≠ LF := textByte_plain (textByte_of_blank hb)
    simp only [lineStep, if_neg h1.1, if_neg h1.2, if_pos (And.intro trivial (blank_iff.1 hb))]
  rw [← run_text p none raw.all post, hw, List.cons_append, run_cons_congr hsame]

theorem Eol.exists_cons (eol : Eol) (rest : List Byte) :
    ∃ c cs, eol.bytes ++ rest = c :: cs ∧ (c = CR ∨ c = LF) := by
  cases eol with
  | crlf => exact ⟨CR, LF :: rest, rfl, Or.inl rfl⟩
  | lf => exact ⟨LF, rest, rfl, Or.inr rfl⟩

/-- The end of a line. -/
theorem run_valueEnd (p : Nat) (nm : Option Slice) (acc : Slice) (eol : Eol) (rest : List Byte) :
    run lineStep p (.value nm acc) (eol.bytes ++ rest) = ([], .halted (.ok (.header nm acc)) rest) := by
  have hCR : ∀ q, lineStep q (.value nm acc) CR = ([], .more (.valueCR nm acc)) := fun _ => rfl
  have hCRLF : ∀ q, lineStep q (.valueCR nm acc) LF = ([], .halt (.ok (.header nm acc))) := fun _ => rfl
  have hLF : ∀ q, lineStep q (.value nm acc) LF = ([], .halt (.ok (.header nm acc))) := fun _ => rfl
  cases eol with
  | crlf =>
    show run lineStep _ _ (CR :: LF :: rest) = _
    rw [run_more (hCR _), run_halt (hCRLF _)]
    rfl
  | lf => exact run_halt (hLF _) rest

/-- A name and its colon. -/
theorem run_named (p : Nat) {hasHeader : Bool} (n : Word tokenByte) (rest : List Byte) :
    run lineStep p (.lineStart hasHeader) (n.bytes ++ COLON :: rest) =
      run lineStep (p + n.bytes.length + 1) (.blanks ⟨p, n.bytes⟩) rest := by
  have hcolon : lineStep (p + n.bytes.length) (.name ⟨p, n.bytes⟩) COLON = ([], .more (.blanks ⟨p, n.bytes⟩)) := by
    simp only [lineStep, stepName, if_neg n.nonempty]
    rfl
  rw [run_name p n.all (Or.inl n.nonempty), run_more hcolon, prepend_nil]

/-- **A line** of the grammar, read from its start. -/
theorem run_line (p : Nat) {hasHeader : Bool} (l : Line) (hl : hasHeader = true ∨ l.content.isNamed = true)
    (rest : List Byte) :
    run lineStep p (.lineStart hasHeader) (l.bytes ++ rest) =
      ([], .halted (.ok (.header (l.content.name p) (l.content.rawValue p))) rest) := by
  obtain ⟨x, eol⟩ := l
  cases x with
  | named n raw =>
    obtain ⟨c, cs, hend, hc⟩ := Eol.exists_cons eol rest
    have hblank : blank c = false := by rcases hc with rfl | rfl <;> rfl
    have hbytes : (Line.mk (.named n raw) eol).bytes ++ rest =
      n.bytes ++ COLON :: (raw.bytes ++ (eol.bytes ++ rest)) := by
      simp only [Line.bytes, Content.bytes, List.append_assoc, List.cons_append]
    rw [hbytes, run_named, hend, run_blanks _ _ raw hblank, ← hend, run_valueEnd]
    rfl
  | continued raw hraw =>
    obtain rfl : hasHeader = true := hl.resolve_right (by simp [Content.isNamed])
    have hbytes : (Line.mk (.continued raw hraw) eol).bytes ++ rest = raw.bytes ++ (eol.bytes ++ rest) := by
      simp only [Line.bytes, Content.bytes, List.append_assoc]
    rw [hbytes, run_continuation p raw hraw, run_valueEnd]
    rfl

/-- Lines of the grammar, read by the header section. -/
theorem run_lines (p : Nat) {hasHeader : Bool} (ls : List Line) (hl : hasHeader = true ∨ Opens ls) (rest : List Byte) :
    run headerStep p ⟨p, .lineStart hasHeader⟩ (linesBytes ls ++ rest) =
      prepend (lineCalls p ls) (run headerStep (p + (linesBytes ls).length)
        ⟨p + (linesBytes ls).length, .lineStart (hasHeader || !ls.isEmpty)⟩ rest) := by
  induction ls generalizing p hasHeader with
  | nil => simp [linesBytes, lineCalls]
  | cons l ls ih =>
    have hfirst : hasHeader = true ∨ l.content.isNamed = true := hl.imp_right fun h => h l rfl
    have hbytes : linesBytes (l :: ls) ++ rest = l.bytes ++ (linesBytes ls ++ rest) := by
      simp only [linesBytes, List.flatMap_cons, List.append_assoc]
    have hpos : p + ((l.bytes ++ (linesBytes ls ++ rest)).length - (linesBytes ls ++ rest).length) =
        p + l.bytes.length := by
      rw [List.length_append, Nat.add_sub_cancel]
    have hlen : p + (linesBytes (l :: ls)).length = p + l.bytes.length + (linesBytes ls).length := by
      simp only [linesBytes, List.flatMap_cons, List.length_append, Nat.add_assoc]
    rw [hbytes, run_headerStep, run_line p l hfirst]
    simp only [hpos]
    rw [ih (p + l.bytes.length) (Or.inl rfl), prepend_prepend, hlen]
    simp [lineCalls, rawEvent]

/-- The empty line that closes the head. -/
theorem run_closing (p : Nat) (hasHeader : Bool) (eol : Eol) (rest : List Byte) :
    run headerStep p ⟨p, .lineStart hasHeader⟩ (eol.bytes ++ rest) =
      ([], .halted (.ok (p + eol.bytes.length)) rest) := by
  cases eol with
  | crlf =>
    have h1 : headerStep p ⟨p, .lineStart hasHeader⟩ CR = ([], .more ⟨p, .closingCR⟩) := rfl
    have h2 : headerStep (p + 1) ⟨p, .closingCR⟩ LF = ([], .halt (.ok (p + 1 + 1))) := rfl
    show run headerStep p _ (CR :: LF :: rest) = _
    rw [run_more h1, run_halt h2]
    rfl
  | lf =>
    have h1 : headerStep p ⟨p, .lineStart hasHeader⟩ LF = ([], .halt (.ok (p + 1))) := rfl
    exact run_halt h1 rest

/-! ## A whole head -/

section Head

variable {l : StartLine} (g : StartGrammar l)

/-- Having read `w` from the very beginning and made the calls `o`. -/
def Lead.Reads (w : List Byte) (o : List (Nat × Event Slice)) : Lead l.State → Prop
  | .begin => w = [] ∧ o = []
  | .beginCR => w = [CR] ∧ o = []
  | .line m s => ∃ (lead : Option Eol) (w' : List Byte) (o' : List (Event Slice)), m = (leadBytes lead).length ∧
      w = leadBytes lead ++ w' ∧ o = o'.map (Prod.mk m) ∧ g.Reads m w' o' s ∧
      (lead = none → ∃ c cs, w = c :: cs ∧ c ≠ CR ∧ c ≠ LF)

def HeadState.Reads (w : List Byte) (o : List (Nat × Event Slice)) : HeadState l → Prop
  | .inl s => Lead.Reads g w o s
  | .inr s => ∃ (lead : Option Eol) (ph : g.Phrase) (w' : List Byte) (o' : List (Nat × Event Slice)),
      w = leadBytes lead ++ g.bytes ph ++ w' ∧
      o = (g.events (leadBytes lead).length ph).map (Prod.mk (leadBytes lead).length) ++ o' ∧
      s.Reads (leadBytes lead ++ g.bytes ph).length w' o'

/-- The callbacks for a head, each with the mark it is made at. -/
def headCalls (h : Head g.toStartSyntax) : List (Nat × Event Slice) :=
  (g.events (leadBytes h.lead).length h.start).map (Prod.mk (leadBytes h.lead).length) ++
    lineCalls h.bodyOffset h.lines

variable {g} {w : List Byte} {o o' : List (Nat × Event Slice)} {c : Byte}

/-- A step of the start line inside the reader of heads. -/
theorem tagged_reads {m : Nat} {s : l.State} (lead : Option Eol) (w' : List Byte) (o₁ : List (Event Slice))
    (hm : m = (leadBytes lead).length) (hw : w = leadBytes lead ++ w') (ho : o = o₁.map (Prod.mk m))
    (hi : g.Reads m w' o₁ s) (hfirst : lead = none → ∃ d ds, w ++ [c] = d :: ds ∧ d ≠ CR ∧ d ≠ LF)
    {n : Next (Lead l.State) (Except (ParserError × Nat) PUnit)} (hs : tagged m (l.step (0 + w.length) s c) = (o', n)) :
    (∃ s', n = .more s' ∧ Lead.Reads g (w ++ [c]) (o ++ o') s') ∨
      (∃ (e : ParserError) (o₂ : List (Event Slice)), n = .halt (.error (e, m)) ∧ o ++ o' = o₂.map (Prod.mk m)) ∨
      (∃ u ph, n = .halt (.ok u) ∧ w ++ [c] = leadBytes lead ++ g.bytes ph ∧
        o ++ o' = (g.events m ph).map (Prod.mk m)) := by
  subst hm hw ho
  have hpos : 0 + (leadBytes lead ++ w').length = (leadBytes lead).length + w'.length := by
    rw [Nat.zero_add, List.length_append]
  rw [hpos] at hs
  cases hl : l.step ((leadBytes lead).length + w'.length) s c with
  | mk o₂ nx =>
    rw [hl] at hs
    rcases nx with s' | e | u
    · cases hs
      refine Or.inl ⟨_, rfl, lead, w' ++ [c], o₁ ++ o₂, rfl, by simp, by simp, ?_, hfirst⟩
      exact g.reads _ _ _ _ _ _ _ hi hl
    · cases hs
      exact Or.inr (Or.inl ⟨e, o₁ ++ o₂, rfl, List.map_append.symm⟩)
    · cases hs
      obtain ⟨ph, h1, h2⟩ := g.phrase _ _ _ _ _ _ _ hi hl
      exact Or.inr (Or.inr ⟨u, ph, rfl, by rw [List.append_assoc, h1], by rw [← h2, List.map_append]⟩)

/-- A step of the empty line or the start line. -/
theorem leadStep_reads {s : Lead l.State} (hi : Lead.Reads g w o s)
    {n : Next (Lead l.State) (Except (ParserError × Nat) PUnit)} (hs : leadStep l (0 + w.length) s c = (o', n)) :
    (∃ s', n = .more s' ∧ Lead.Reads g (w ++ [c]) (o ++ o') s') ∨
      (∃ (e : ParserError) (o₂ : List (Event Slice)), n = .halt (.error (e, s.mark)) ∧
        o ++ o' = o₂.map (Prod.mk s.mark)) ∨
      (∃ u lead ph, n = .halt (.ok u) ∧ w ++ [c] = leadBytes lead ++ g.bytes ph ∧
        o ++ o' = (g.events (leadBytes lead).length ph).map (Prod.mk (leadBytes lead).length)) := by
  rcases leadStep_cases hs with ⟨rfl, rfl, rfl, rfl⟩ | ⟨hs', rfl, rfl, rfl⟩ | ⟨rfl, -, rfl, rfl⟩ | ⟨m, x, hs', ht⟩
  · obtain ⟨rfl, rfl⟩ := hi
    exact Or.inl ⟨_, rfl, rfl, rfl⟩
  · rcases hs' with rfl | rfl
    · obtain ⟨rfl, rfl⟩ := hi
      exact Or.inl ⟨_, rfl, some .lf, [], [], rfl, rfl, rfl, g.begins 1, by simp⟩
    · obtain ⟨rfl, rfl⟩ := hi
      exact Or.inl ⟨_, rfl, some .crlf, [], [], rfl, rfl, rfl, g.begins 2, by simp⟩
  · obtain ⟨rfl, rfl⟩ := hi
    exact Or.inr (Or.inl ⟨_, [], rfl, rfl⟩)
  · rcases hs' with ⟨rfl, rfl, rfl, h1, h2⟩ | rfl
    · obtain ⟨rfl, rfl⟩ := hi
      rcases tagged_reads none [] [] (w := []) (o := []) rfl rfl rfl (g.begins 0)
        (fun _ => ⟨c, [], rfl, h1, h2⟩) ht with h | h | ⟨u, ph, h⟩
      · exact Or.inl h
      · exact Or.inr (Or.inl h)
      · exact Or.inr (Or.inr ⟨u, none, ph, h⟩)
    · obtain ⟨lead, w', o₁, rfl, hw, ho, hi, hfirst⟩ := hi
      have hfirst' : lead = none → ∃ d ds, w ++ [c] = d :: ds ∧ d ≠ CR ∧ d ≠ LF := by
        intro hn
        obtain ⟨d, ds, rfl, h1, h2⟩ := hfirst hn
        exact ⟨d, ds ++ [c], rfl, h1, h2⟩
      rcases tagged_reads lead w' o₁ rfl hw ho hi hfirst' ht with h | h | ⟨u, ph, h⟩
      · exact Or.inl h
      · exact Or.inr (Or.inl h)
      · exact Or.inr (Or.inr ⟨u, lead, ph, h⟩)

/-- **One step of the reader of heads** reads on, stops with an error at its mark, or completes a head. -/
theorem headStep_reads {s : HeadState l} (hi : HeadState.Reads g w o s)
    {n : Next (HeadState l) (Except (ParserError × Nat) Nat)} (hs : headStep l (0 + w.length) s c = (o', n)) :
    (∃ s', n = .more s' ∧ HeadState.Reads g (w ++ [c]) (o ++ o') s') ∨
      (∃ e, n = .halt (.error (e, HeadState.mark s))) ∨
      ∃ h : Head g.toStartSyntax, n = .halt (.ok h.bytes.length) ∧ w ++ [c] = h.bytes ∧ o ++ o' = headCalls g h := by
  cases s with
  | inl s =>
    cases hl : leadStep l (0 + w.length) s c with
    | mk o₁ nx =>
      simp only [headStep, seq, hl] at hs
      rcases leadStep_reads hi hl with ⟨s', rfl, h⟩ | ⟨e, -, rfl, -⟩ | ⟨u, lead, ph, rfl, hw, ho⟩
      · cases hs
        exact Or.inl ⟨_, rfl, h⟩
      · cases hs
        exact Or.inr (Or.inl ⟨e, rfl⟩)
      · cases hs
        refine Or.inl ⟨_, rfl, lead, ph, [], [], by rw [hw, List.append_nil], by rw [ho, List.append_nil], ?_⟩
        have hpos : 0 + w.length + 1 = (leadBytes lead ++ g.bytes ph).length := by
          rw [← hw, List.length_append, List.length_singleton, Nat.zero_add]
        rw [hpos]
        exact headerStart_reads _
  | inr s =>
    obtain ⟨lead, ph, w', o₁, rfl, rfl, hr⟩ := hi
    have hpos : 0 + (leadBytes lead ++ g.bytes ph ++ w').length =
        (leadBytes lead ++ g.bytes ph).length + w'.length := by
      rw [Nat.zero_add, List.length_append]
    rw [hpos] at hs
    cases hl : headerStep ((leadBytes lead ++ g.bytes ph).length + w'.length) s c with
    | mk o₂ nx =>
      simp only [headStep, seq, hl] at hs
      rcases nx with s' | ⟨e, m⟩ | k
      · cases hs
        exact Or.inl ⟨_, rfl, lead, ph, w' ++ [c], o₁ ++ o', by simp, by simp, headerStep_reads hr hl⟩
      · cases hs
        obtain ⟨rfl, -, -⟩ := headerStep_error hl
        exact Or.inr (Or.inl ⟨e, rfl⟩)
      · cases hs
        obtain ⟨ls, eol, hopens, hw, ho, rfl, -⟩ := headerStep_closing hr hl
        refine Or.inr (Or.inr ⟨⟨lead, ph, ls, hopens, eol⟩, ?_, ?_, ?_⟩)
        · simp only [Head.bytes, List.length_append, Nat.add_assoc]
        · rw [List.append_assoc, hw, Head.bytes, List.append_assoc (leadBytes lead ++ g.bytes ph)]
        · rw [List.append_assoc, ho]
          rfl

theorem headStep_preserved : Preserved (headStep l) 0 (HeadState.Reads g) := by
  intro w o s c o' s' hi hs
  rcases headStep_reads hi hs with ⟨s₁, h1, h2⟩ | ⟨e, h1⟩ | ⟨h, h1, -⟩
  · cases h1
    exact h2
  · cases h1
  · cases h1

theorem begin_reads : HeadState.Reads g [] [] (.inl .begin) := ⟨rfl, rfl⟩

/-- A buffer that ends inside a head is the beginning of one. -/
theorem read_live {b : List Byte} {s : HeadState l} (h : read l b 0 = (o, .live s)) : HeadState.Reads g b o s :=
  run_inv_live headStep_preserved begin_reads h

/-- **What is read to the end is a head** of the grammar. -/
theorem read_sound {b rest : List Byte} {n : Nat} (h : read l b 0 = (o, .halted (.ok n) rest)) :
    ∃ hd : Head g.toStartSyntax, b = hd.bytes ++ rest ∧ n = hd.bytes.length ∧ o = headCalls g hd := by
  obtain ⟨a, c, o₁, o₂, s, rfl, rfl, hi, hs⟩ := run_inv_halted (headStep_preserved (g := g)) begin_reads h
  rcases headStep_reads hi hs with ⟨s₁, h1, -⟩ | ⟨e, h1⟩ | ⟨hd, h1, hw, ho⟩
  · cases h1
  · cases h1
  · cases h1
    exact ⟨hd, by rw [← hw]; simp, rfl, ho⟩

/-- The empty line in front. -/
theorem run_leadEol (eol : Eol) (rest : List Byte) :
    run (headStep l) 0 (.inl .begin) (eol.bytes ++ rest) =
      run (headStep l) eol.bytes.length (.inl (.line eol.bytes.length (l.start eol.bytes.length))) rest := by
  cases eol with
  | crlf =>
    have h1 : headStep l 0 (.inl .begin) CR = ([], .more (.inl .beginCR)) := rfl
    have h2 : headStep l (0 + 1) (.inl .beginCR) LF = ([], .more (.inl (.line 2 (l.start 2)))) := rfl
    show run (headStep l) 0 (.inl .begin) (CR :: LF :: rest) = _
    rw [run_more h1, run_more h2, prepend_nil, prepend_nil]
    rfl
  | lf =>
    have h1 : headStep l 0 (.inl .begin) LF = ([], .more (.inl (.line 1 (l.start 1)))) := rfl
    exact (run_more h1 rest).trans (prepend_nil _)

/-- The same, if there is one. -/
theorem run_leadBytes (lead : Option Eol) {c : Byte} {cs : List Byte} (hc : c ≠ CR ∧ c ≠ LF) :
    run (headStep l) 0 (.inl .begin) (leadBytes lead ++ c :: cs) =
      run (headStep l) (leadBytes lead).length
        (.inl (.line (leadBytes lead).length (l.start (leadBytes lead).length))) (c :: cs) := by
  cases lead with
  | none =>
    apply run_cons_congr
    simp only [headStep, seq, leadStep, if_neg hc.1, if_neg hc.2]
    rfl
  | some eol => exact run_leadEol eol (c :: cs)

/-- **A start line is read to its end**, and the header section begins behind it. -/
theorem read_startLine (lead : Option Eol) (ph : g.Phrase) (rest : List Byte) :
    read l (leadBytes lead ++ g.bytes ph ++ rest) 0 =
      prepend ((g.events (leadBytes lead).length ph).map (Prod.mk (leadBytes lead).length))
        (inSnd (run headerStep (leadBytes lead ++ g.bytes ph).length
          (headerStart (leadBytes lead ++ g.bytes ph).length) rest)) := by
  obtain ⟨c, cs, hph, hc⟩ := g.first ph
  have hpos : (leadBytes lead).length + ((g.bytes ph ++ rest).length - rest.length) =
      (leadBytes lead ++ g.bytes ph).length := by
    rw [List.length_append, Nat.add_sub_cancel, List.length_append]
  unfold read
  rw [if_pos rfl, List.append_assoc, hph, List.cons_append, run_leadBytes lead hc, ← List.cons_append, ← hph,
    run_headStep_line, g.complete]
  simp only [hpos]

/-- The start line and some whole header lines: what follows them is read from the start of a line. -/
theorem read_lines (lead : Option Eol) (ph : g.Phrase) {ls : List Line} (hopens : Opens ls) (rest : List Byte) :
    read l (leadBytes lead ++ g.bytes ph ++ linesBytes ls ++ rest) 0 =
      prepend ((g.events (leadBytes lead).length ph).map (Prod.mk (leadBytes lead).length) ++
          lineCalls (leadBytes lead ++ g.bytes ph).length ls)
        (inSnd (run headerStep (leadBytes lead ++ g.bytes ph ++ linesBytes ls).length
          ⟨(leadBytes lead ++ g.bytes ph ++ linesBytes ls).length, .lineStart (!ls.isEmpty)⟩ rest)) := by
  rw [List.append_assoc (leadBytes lead ++ g.bytes ph), read_startLine, headerStart, run_lines _ ls (Or.inr hopens),
    inSnd_prepend, prepend_prepend, @List.length_append _ (leadBytes lead ++ g.bytes ph), Bool.false_or]

/-- **Every head of the grammar is read** to its end, whatever follows it. -/
theorem read_complete (hd : Head g.toStartSyntax) (rest : List Byte) :
    read l (hd.bytes ++ rest) 0 = (headCalls g hd, .halted (.ok hd.bytes.length) rest) := by
  obtain ⟨lead, ph, ls, hopens, eol⟩ := hd
  have hread := read_lines (g := g) lead ph hopens (eol.bytes ++ rest)
  rw [run_closing] at hread
  simp only [Head.bytes, List.append_assoc] at hread ⊢
  rw [hread]
  simp [prepend, inSnd, headCalls, Head.bodyOffset, Nat.add_assoc]

/-- A call with a `lastPos` reads header lines from there. -/
theorem read_resume {b : List Byte} {lastPos : Nat} (h0 : lastPos ≠ 0) :
    read l b lastPos = inSnd (run headerStep lastPos (headerStart lastPos) (b.drop lastPos)) := by
  unfold read headStep
  rw [if_neg h0, run_seq_inr]

/-! ## Where a call stops -/

/-- The mark a run ends with. -/
def stopMark {τ : Type} (mark : τ → Nat) : Outcome τ Byte (Except (ParserError × Nat) Nat) → Nat
  | .live s => mark s
  | .halted (.error (_, m)) _ => m
  | .halted (.ok n) _ => n

/-- Header lines `ls` have been read from `p` on, and `tail` is what comes after them. -/
def HeaderEnd (p : Nat) (ls : List Line) (tail : List Byte) :
    Outcome HeaderState Byte (Except (ParserError × Nat) Nat) → Prop
  | .live s => s.mark = p + (linesBytes ls).length ∧ s.phase.Reads s.mark (!ls.isEmpty) tail
  | .halted (.error (_, m)) _ => m = p + (linesBytes ls).length
  | .halted (.ok n) rest => ∃ eol : Eol, tail = eol.bytes ++ rest ∧ n = p + (linesBytes ls ++ eol.bytes).length

theorem headerStep_preserved (p : Nat) : Preserved headerStep p (fun w o s => HeaderState.Reads p w o s) :=
  fun _ _ _ _ _ _ hi hs => headerStep_reads hi hs

/-- **The header section, however it ends**: whole lines, each reported once and in order, up to the mark. -/
theorem run_header_lines (p : Nat) (b : List Byte) :
    ∃ ls tail, Opens ls ∧ b = linesBytes ls ++ tail ∧ (run headerStep p (headerStart p) b).1 = lineCalls p ls ∧
      HeaderEnd p ls tail (run headerStep p (headerStart p) b).2 := by
  have hinv := run_inv (headerStep_preserved p) (headerStart_reads p) b
  rcases hr : run headerStep p (headerStart p) b with ⟨o, s | ⟨v, rest⟩⟩
  · rw [hr] at hinv
    obtain ⟨ls, tail, h1, h2, h3, h4, h5⟩ := hinv
    exact ⟨ls, tail, h1, h2, h3, h4, h5⟩
  · rw [hr] at hinv
    obtain ⟨a, c, o₁, o₂, s, rfl, rfl, hi, hs⟩ := hinv
    rcases v with ⟨e, m⟩ | n
    · obtain ⟨rfl, rfl, -⟩ := headerStep_error hs
      obtain ⟨ls, tail, h1, h2, h3, h4, -⟩ := hi
      exact ⟨ls, tail ++ c :: rest, h1, by rw [h2, List.append_assoc], by rw [h3, List.append_nil], h4⟩
    · obtain ⟨ls, eol, h1, h2, h3, h4, -⟩ := headerStep_closing hi hs
      refine ⟨ls, eol.bytes ++ rest, h1, ?_, h3, eol, rfl, h4⟩
      rw [← List.append_assoc, ← h2]
      simp

theorem leadStep_preserved : Preserved (leadStep l) 0 (Lead.Reads g) := by
  intro w o s c o' s' hi hs
  rcases leadStep_reads hi hs with ⟨s₁, h1, h2⟩ | ⟨e, -, h1, -⟩ | ⟨u, lead, ph, h1, -⟩
  · cases h1
    exact h2
  · cases h1
  · cases h1

theorem tagged_outputs {σ : Type} (m : Nat) (r : LineOut σ) : (tagged m r).1 = r.1.map (Prod.mk m) := by
  rcases r with ⟨o, s | e | u⟩ <;> rfl

/-- The calls of the start line are no header calls. -/
theorem leadStep_notHeader (p : Nat) (s : Lead l.State) (c : Byte) :
    ∀ x ∈ (leadStep l p s c).1, x.2.isHeader = false := by
  intro x hx
  cases hs : leadStep l p s c with
  | mk o n =>
    rw [hs] at hx
    rcases leadStep_cases hs with ⟨-, -, rfl, -⟩ | ⟨-, -, rfl, -⟩ | ⟨-, -, rfl, -⟩ | ⟨m, t, -, ht⟩
    · cases hx
    · cases hx
    · cases hx
    · have ho := tagged_outputs m (l.step p t c)
      rw [ht] at ho
      rw [show o = _ from ho] at hx
      obtain ⟨e, he, rfl⟩ := List.mem_map.1 hx
      exact l.notHeader p t c e he

theorem Lead.Reads.calls {w : List Byte} {o : List (Nat × Event Slice)} {s : Lead l.State} (h : Lead.Reads g w o s) :
    ∃ o' : List (Event Slice), o = o'.map (Prod.mk s.mark) := by
  cases s with
  | begin => exact ⟨[], h.2⟩
  | beginCR => exact ⟨[], h.2⟩
  | line m t =>
    obtain ⟨lead, w', o', -, -, ho, -⟩ := h
    exact ⟨o', ho⟩

theorem Lead.Reads.mark_le {w : List Byte} {o : List (Nat × Event Slice)} {s : Lead l.State} (h : Lead.Reads g w o s) :
    s.mark ≤ w.length := by
  cases s with
  | begin => exact Nat.zero_le _
  | beginCR => exact Nat.zero_le _
  | line m t =>
    obtain ⟨lead, w', o', rfl, rfl, -⟩ := h
    rw [List.length_append]
    exact Nat.le_add_right _ _

/-- **A call from the very beginning**: it ends inside the start line, stops there with an error, or reads the
start line to its end and goes on with the header section. -/
theorem read_cases (g : StartGrammar l) (b : List Byte) :
    (∃ (o : List (Event Slice)) (s : Lead l.State), read l b 0 = (o.map (Prod.mk (Lead.mark s)), .live (.inl s)) ∧
      Lead.Reads g b (o.map (Prod.mk (Lead.mark s))) s ∧ ∀ e ∈ o, e.isHeader = false) ∨
    (∃ (o : List (Event Slice)) (a : List Byte) (c : Byte) (rest : List Byte) (s : Lead l.State) (e : ParserError),
      read l b 0 = (o.map (Prod.mk (Lead.mark s)), .halted (.error (e, Lead.mark s)) rest) ∧
      b = a ++ c :: rest ∧ (∃ o', Lead.Reads g a o' s) ∧ ∀ e ∈ o, e.isHeader = false) ∨
    ∃ lead ph rest, b = leadBytes lead ++ g.bytes ph ++ rest ∧ read l b 0 =
      prepend ((g.events (leadBytes lead).length ph).map (Prod.mk (leadBytes lead).length))
        (inSnd (run headerStep (leadBytes lead ++ g.bytes ph).length
          (headerStart (leadBytes lead ++ g.bytes ph).length) rest)) := by
  have hinv := run_inv (leadStep_preserved (g := g)) (s := .begin) ⟨rfl, rfl⟩ b
  have hout := run_outputs (Q := fun x : Nat × Event Slice => x.2.isHeader = false) leadStep_notHeader 0
    (.begin : Lead l.State) b
  have hmap : ∀ (o : List (Event Slice)) (m : Nat), (∀ x ∈ o.map (Prod.mk m), x.2.isHeader = false) →
      ∀ e ∈ o, e.isHeader = false := fun o m h e he => h (m, e) (List.mem_map_of_mem he)
  have hseq : read l b 0 = _ := (if_pos rfl).trans (run_seq 0 Lead.begin b)
  rcases hr : run (leadStep l) 0 .begin b with ⟨o, s | ⟨v, rest⟩⟩
  · rw [hr] at hinv hout hseq
    obtain ⟨o', rfl⟩ := Lead.Reads.calls hinv
    exact Or.inl ⟨o', s, hseq, hinv, hmap _ _ hout⟩
  · rw [hr] at hinv hout hseq
    obtain ⟨a, c, o₁, o₂, s, rfl, rfl, hi, hs⟩ := hinv
    rcases leadStep_reads hi hs with ⟨s', h1, -⟩ | ⟨e, o₃, h1, h2⟩ | ⟨u, lead, ph, h1, h2, h3⟩
    · cases h1
    · cases h1
      rw [h2] at hseq hout
      exact Or.inr (Or.inl ⟨o₃, a, c, rest, s, e, hseq, rfl, ⟨o₁, hi⟩, hmap _ _ hout⟩)
    · cases h1
      have hsplit : a ++ c :: rest = leadBytes lead ++ g.bytes ph ++ rest := by
        rw [← h2]
        simp
      have hlen : 0 + ((a ++ c :: rest).length - rest.length) = (leadBytes lead ++ g.bytes ph).length := by
        rw [hsplit, List.length_append, Nat.add_sub_cancel, Nat.zero_add]
      refine Or.inr (Or.inr ⟨lead, ph, rest, hsplit, ?_⟩)
      rw [hseq, ← h3]
      simp only [hlen]

/-- **Any call**: it makes the callbacks of its start line, which share one mark, and stops at that mark, or
goes on with the header section. -/
theorem read_forms (g : StartGrammar l) (b : List Byte) (lastPos : Nat) :
    ∃ (o : List (Event Slice)) (m : Nat), (∀ e ∈ o, e.isHeader = false) ∧
      (((read l b lastPos).1 = o.map (Prod.mk m) ∧ stopMark HeadState.mark (read l b lastPos).2 = m ∧
          m ≤ b.length) ∨
        ∃ q, read l b lastPos =
            prepend (o.map (Prod.mk m)) (inSnd (run headerStep q (headerStart q) (b.drop q))) ∧
          m ≤ q ∧ (lastPos ≤ b.length → q ≤ b.length)) := by
  by_cases h0 : lastPos = 0
  · subst h0
    rcases read_cases g b with ⟨o, s, hr, hs, hno⟩ | ⟨o, a, c, rest, s, e, hr, rfl, ⟨o', hs⟩, hno⟩ |
        ⟨lead, ph, rest, rfl, hr⟩
    · refine ⟨o, Lead.mark s, hno, Or.inl ?_⟩
      rw [hr]
      exact ⟨rfl, rfl, Lead.Reads.mark_le hs⟩
    · refine ⟨o, Lead.mark s, hno, Or.inl ?_⟩
      rw [hr]
      exact ⟨rfl, rfl, (Lead.Reads.mark_le hs).trans (List.prefix_append _ _).length_le⟩
    · refine ⟨g.events (leadBytes lead).length ph, (leadBytes lead).length, g.notHeader _ ph,
        Or.inr ⟨(leadBytes lead ++ g.bytes ph).length, ?_, ?_, fun _ => ?_⟩⟩
      · rw [List.drop_left' rfl]
        exact hr
      · exact (List.prefix_append _ _).length_le
      · exact (List.prefix_append _ _).length_le
  · refine ⟨[], 0, fun e he => absurd he List.not_mem_nil, Or.inr ⟨lastPos, ?_, Nat.zero_le _, id⟩⟩
    rw [read_resume h0]
    exact (prepend_nil _).symm

end Head

end Httparsed
