import Httparsed.ErrorCodes
import Httparsed.ViableStatus

/-!
# The code of an error of a response (httparsed.d:280-352)

As for requests, a response is refused with the first byte that cannot be read, and the code can be read off that
byte and the bytes before it (`StatusNames`). The look-ahead of the status code shows in two places: `status`
comes with the byte behind three bytes, and a CR among these three is no line end yet.
-/

namespace Httparsed

open Transducer Grammar

variable {σ : Type}

/-! ## What a code says -/

/-- What a code other than `token` says about the byte `c` and the bytes `pre` before it. -/
def StatusNames (pre : List Byte) (c : Byte) : ParserError → Prop
  | .newLine => pre.getLast? = some CR ∧ ∀ cs, AtCode pre cs → 3 < cs.length
  | .noVersion => (∃ lead, pre = leadBytes lead) ∧ c = SP
  | .noStatus => AtCode pre [] ∧ (c = CR ∨ c = LF)
  | .status => ∃ cs, AtCode pre cs ∧ cs.length = 3 ∧ ((∃ d ∈ cs, isDigit d = false) ∨ (c ≠ SP ∧ c ≠ CR ∧ c ≠ LF))
  | .noHeaderName => (∃ (lead : Option Eol) (l : StatusLine) (ls : List Line), Opens ls ∧
      pre = leadBytes lead ++ l.bytes ++ linesBytes ls) ∧ c = COLON
  | _ => False

/-! ## Where the reader stands -/

/-- A prefix decides the state. -/
theorem read_state {l : StartLine} {b : List Byte} {o o' : List (Nat × Event Slice)} {s s' : HeadState l}
    (h : read l b 0 = (o, .live s)) (h' : read l b 0 = (o', .live s')) : s = s' := by
  rw [h] at h'
  cases h'
  rfl

/-- Outside the code, more than its three bytes have been read. -/
theorem beyond_code {b : List Byte} {o : List (Nat × Event Slice)} {s : HeadState statusLine}
    (hlive : read statusLine b 0 = (o, .live s))
    (hs : ∀ m t, s = .inl (.line m t) → t ≠ StatusState.versionSpaces ∧ ∀ acc, t ≠ StatusState.code acc)
    {cs : List Byte} (hat : AtCode b cs) : 3 < cs.length := by
  by_contra hlen
  obtain ⟨o', m, t, hlive', ht⟩ := hat.live (by omega)
  have hne := hs m t (read_state hlive hlive')
  rcases ht with ⟨-, rfl⟩ | ⟨-, p, rfl⟩
  · exact hne.1 rfl
  · exact hne.2 _ rfl

/-- A step of the start line that refuses. -/
theorem headStep_line_error {l : StartLine} {p m k : Nat} {t : l.State} {c : Byte} {o : List (Nat × Event Slice)}
    {e : ParserError} (h : headStep l p (.inl (.line m t)) c = (o, .halt (.error (e, k)))) :
    ∃ o', l.step p t c = (o', .halt (.error e)) := by
  obtain ⟨⟨e', k'⟩, hl, he⟩ := seq_inl_halt h
  cases he
  obtain ⟨o', hstep, -, -⟩ := tagged_error hl
  exact ⟨o', hstep⟩

/-! ## A refusal satisfies its code -/

/-- The byte behind three bytes of a code. -/
theorem stepCode_refused {p : Nat} {acc : Slice} {c : Byte} {o : List (Event Slice)} {e : ParserError}
    (hacc : acc.bytes.length ≤ 3) (h : stepCode p acc c = (o, .halt (.error e))) :
    e = .status ∧ acc.bytes.length = 3 ∧ ((∃ d ∈ acc.bytes, isDigit d = false) ∨ (c ≠ SP ∧ c ≠ CR ∧ c ≠ LF)) := by
  have hfull : ¬ acc.bytes.length < 3 := by
    intro hlt
    rw [stepCode, if_pos hlt] at h
    cases h
  have hlen : acc.bytes.length = 3 := by omega
  obtain ⟨a, b, d, hbytes⟩ := List.length_eq_three.1 hlen
  by_cases hdigits : ∀ x ∈ acc.bytes, isDigit x = true
  · rw [hbytes] at hdigits
    let k : Code := ⟨a, b, d, hdigits a (by simp), hdigits b (by simp), hdigits d (by simp)⟩
    have hk : acc.bytes = k.bytes := hbytes
    by_cases hc : c ≠ SP ∧ c ≠ CR ∧ c ≠ LF
    · rw [stepCode, if_neg hfull, hk, codeValue_bytes] at h
      simp only [if_pos hc] at h
      cases h
      exact ⟨rfl, hlen, Or.inr hc⟩
    · -- a good code: what follows it is read on
      have hc' : c = SP ∨ c = CR ∨ c = LF := by tauto
      rw [stepCode_digits hk hc'] at h
      rcases hc' with rfl | rfl | rfl <;> cases h
  · have hbad : ∃ x ∈ acc.bytes, isDigit x = false := by
      simpa only [not_forall, exists_prop, Bool.not_eq_true] using hdigits
    have hnone : codeValue acc.bytes = none := by
      cases hv : codeValue acc.bytes with
      | none => rfl
      | some n =>
        obtain ⟨k, hk, -⟩ := codeValue_eq_some hv
        refine absurd ?_ hdigits
        rw [hk]
        simp [Code.bytes, k.digit₁, k.digit₂, k.digit₃]
    rw [stepCode, if_neg hfull, hnone] at h
    cases h
    exact ⟨rfl, hlen, Or.inl hbad⟩

/-- The bytes that are held in `code`. -/
theorem code_atCode {p : Nat} {w : List Byte} {o : List (Event Slice)} {acc : Slice}
    (hi : (StatusState.code acc).Reads p w o) (lead : Option Eol) :
    ∃ cs, AtCode (leadBytes lead ++ w) cs ∧ cs.length ≤ 3 ∧ acc.bytes = cs := by
  obtain ⟨v, g, d, ds, rfl, -, hacc, h1, h2, h3, hds, -⟩ := hi
  refine ⟨d :: ds, ⟨lead, v, g, ?_, ?_⟩, ?_, hacc⟩
  · rintro x ⟨⟩
    exact ⟨h1, h2, h3⟩
  · rw [hacc, List.append_assoc v.bytes]
  · rw [List.length_cons]
    omega

/-- A status line is refused for a reason that can be seen. -/
theorem statusStep_refused {p : Nat} {w : List Byte} {o o' : List (Event Slice)} {s : StatusState} {c : Byte}
    {e : ParserError} (hi : s.Reads p w o) (hs : statusStep (p + w.length) s c = (o', .halt (.error e)))
    (lead : Option Eol) :
    e = .token ∨ (e = .newLine ∧ s = .textCR ∧ w.getLast? = some CR) ∨ StatusNames (leadBytes lead ++ w) c e := by
  cases s with
  | version acc =>
    obtain ⟨rfl, -, -⟩ := hi
    simp only [statusStep, stepStatusVersion] at hs
    split_ifs at hs with h1 h2 h3 <;> cases hs
    · subst h3
      exact Or.inr (Or.inr ⟨⟨lead, List.append_nil _⟩, h2⟩)
    · exact Or.inl rfl
  | versionSpaces =>
    obtain ⟨v, g, rfl, -⟩ := hi
    simp only [statusStep, stepCode_nil] at hs
    split_ifs at hs with h1 <;> cases hs
    exact Or.inr (Or.inr ⟨⟨lead, v, g, by simp, by rw [List.append_nil]⟩, h1⟩)
  | code acc =>
    obtain ⟨cs, hat, hlen, rfl⟩ := code_atCode hi lead
    obtain ⟨rfl, hthree, hwhy⟩ := stepCode_refused hlen hs
    exact Or.inr (Or.inr ⟨acc.bytes, hat, hthree, hwhy⟩)
  | text acc =>
    simp only [statusStep, stepText] at hs
    split_ifs at hs <;> cases hs
    exact Or.inl rfl
  | textCR =>
    obtain ⟨v, g, k, t, rfl, -⟩ := hi
    simp only [statusStep] at hs
    split_ifs at hs <;> cases hs
    exact Or.inr (Or.inl ⟨rfl, rfl, by simp⟩)

/-- **The code of a refusal**, read off the bytes before it. -/
theorem headStep_statusRefused {w : List Byte} {o o' : List (Nat × Event Slice)} {s : HeadState statusLine} {c : Byte}
    {e : ParserError} {m : Nat} (hlive : read statusLine w 0 = (o, .live s))
    (hs : headStep statusLine (0 + w.length) s c = (o', .halt (.error (e, m)))) : e = .token ∨ StatusNames w c e := by
  have hi := Httparsed.read_live (g := statusGrammar) hlive
  cases s with
  | inl s =>
    cases s with
    | begin =>
      obtain ⟨rfl, -⟩ := hi
      obtain ⟨⟨e', m'⟩, hl, he⟩ := seq_inl_halt hs
      cases he
      rcases leadStep_cases hl with ⟨-, -, -, hn⟩ | ⟨-, -, -, hn⟩ | ⟨hn, -⟩ | ⟨k, t, ⟨-, -, rfl, -⟩ | hn, ht⟩
      · cases hn
      · cases hn
      · cases hn
      · obtain ⟨o₁, hstep, -, -⟩ := tagged_error ht
        have hnames := statusStep_refused (s := .version ⟨0, []⟩) (o := []) (w := []) ⟨rfl, by simp, rfl⟩ hstep none
        rcases hnames with h | ⟨-, hstate, -⟩ | h
        · exact Or.inl h
        · cases hstate
        · exact Or.inr h
      · cases hn
    | beginCR =>
      obtain ⟨rfl, -⟩ := hi
      obtain ⟨⟨e', m'⟩, hl, he⟩ := seq_inl_halt hs
      cases he
      rcases leadStep_cases hl with ⟨-, -, -, hn⟩ | ⟨-, -, -, hn⟩ | ⟨-, -, -, hn⟩ | ⟨k, t, ⟨hn, -⟩ | hn, ht⟩
      · cases hn
      · cases hn
      · cases hn
        exact Or.inr ⟨rfl, fun cs hat => beyond_code hlive (by intro m t h; cases h) hat⟩
      · cases hn
      · cases hn
    | line k t =>
      obtain ⟨o₁, hstep⟩ := headStep_line_error hs
      obtain ⟨lead, w', o₂, rfl, rfl, -, hreads, -⟩ := hi
      rw [Nat.zero_add, List.length_append] at hstep
      rcases statusStep_refused hreads hstep lead with h | ⟨rfl, rfl, hlast⟩ | h
      · exact Or.inl h
      · refine Or.inr ⟨?_, fun cs hat => beyond_code hlive ?_ hat⟩
        · rw [List.getLast?_append, hlast]
          rfl
        · intro m t h
          cases h
          refine ⟨?_, fun acc => ?_⟩ <;> rintro ⟨⟩
      · exact Or.inr h
  | inr s =>
    obtain ⟨lead, ph, w', o₁, rfl, -, hreads⟩ := hi
    rw [Nat.zero_add, List.length_append] at hs
    rcases headerStep_refused hreads (seq_inr_halt hs) with h | ⟨rfl, hw⟩ | ⟨rfl, ⟨ls, hopens, rfl⟩, hc⟩
    · exact Or.inl h
    · refine Or.inr ⟨?_, fun cs hat => beyond_code hlive (by intro m t h; cases h) hat⟩
      rw [List.getLast?_append, hw]
      rfl
    · exact Or.inr ⟨⟨lead, ph, ls, hopens, rfl⟩, hc⟩

/-! ## A prefix decides its code -/

/-- The states in which a CR has just been read: in a code it is held like any byte. -/
inductive AfterStatusCR : HeadState statusLine → Prop where
  | lead : AfterStatusCR (.inl .beginCR)
  | code (m : Nat) (acc : Slice) : AfterStatusCR (.inl (.line m (StatusState.code acc)))
  | text (m : Nat) : AfterStatusCR (.inl (.line m StatusState.textCR))
  | closing (m : Nat) : AfterStatusCR (.inr ⟨m, .closingCR⟩)
  | value (m : Nat) (nm : Option Slice) (v : Slice) : AfterStatusCR (.inr ⟨m, .valueCR nm v⟩)

theorem statusStep_CR {p : Nat} {s s' : StatusState} {o : List (Event Slice)}
    (h : statusStep p s CR = (o, .more s')) : s' = .textCR ∨ ∃ acc, s' = .code acc := by
  have hcode : ∀ {acc : Slice}, stepCode p acc CR = (o, .more s') → s' = .textCR ∨ ∃ acc, s' = .code acc := by
    intro acc hc
    rcases stepCode_inv hc with ⟨-, -, hn⟩ | ⟨e, hn⟩ | ⟨k, -, -, -, hn⟩
    · cases hn
      exact Or.inr ⟨_, rfl⟩
    · cases hn
    · cases hn
      exact Or.inl rfl
  cases s with
  | version acc => cases h
  | versionSpaces => cases h
  | code acc => exact hcode h
  | text acc =>
    cases h
    exact Or.inl rfl
  | textCR => cases h

theorem headStep_statusCR {p : Nat} {s s' : HeadState statusLine} {o : List (Nat × Event Slice)}
    (h : headStep statusLine p s CR = (o, .more s')) : AfterStatusCR s' := by
  cases s with
  | inl s =>
    rcases seq_inl_more h with ⟨s₁, hl, rfl⟩ | ⟨u, hl, rfl⟩
    · rcases leadStep_cases hl with ⟨-, -, -, hn⟩ | ⟨-, hc, -, -⟩ | ⟨-, -, -, hn⟩ | ⟨m, t, -, ht⟩
      · cases hn
        exact .lead
      · cases hc
      · cases hn
      · obtain ⟨o₁, t', hstep, -, rfl⟩ := tagged_more ht
        rcases statusStep_CR hstep with rfl | ⟨acc, rfl⟩
        · exact .text m
        · exact .code m acc
    · rcases leadStep_cases hl with ⟨-, -, -, hn⟩ | ⟨-, -, -, hn⟩ | ⟨-, -, -, hn⟩ | ⟨m, t, -, ht⟩
      · cases hn
      · cases hn
      · cases hn
      · obtain ⟨o₁, hstep, -⟩ := tagged_ok ht
        exact absurd (statusStep_ends p t CR u (congrArg Prod.snd hstep)) (by decide)
  | inr s =>
    obtain ⟨s₁, hs, rfl⟩ := seq_inr_more h
    rcases headerStep_more hs with ⟨o₁, phase', hl, -, rfl⟩ | ⟨o₁, nm, v, hl, -, -⟩
    · rcases lineStep_CR hl with rfl | ⟨nm, v, rfl⟩
      · exact .closing s.mark
      · exact .value s.mark nm v
    · exact absurd hl lineStep_CR_ok

/-- A live run whose last byte is a CR stands behind it. -/
theorem read_afterStatusCR {a : List Byte} {o : List (Nat × Event Slice)} {s : HeadState statusLine}
    (h : read statusLine a 0 = (o, .live s)) (hlast : a.getLast? = some CR) : AfterStatusCR s := by
  have hstep : Preserved (headStep statusLine) 0 (fun w _ s => w.getLast? = some CR → AfterStatusCR s) := by
    intro w o₁ s₁ c o' s' _ hs hc
    obtain rfl : c = CR := by simpa using hc
    exact headStep_statusCR hs
  exact run_inv_live hstep (by intro h; cases h) (show run _ 0 (.inl .begin) a = _ from h) hlast

/-- After a CR outside the code there is an LF, or an error that says so. -/
theorem AfterStatusCR.step {p : Nat} {s : HeadState statusLine} {c : Byte} {o : List (Nat × Event Slice)}
    {e : ParserError} {m : Nat} (h : AfterStatusCR s) (hcode : ∀ m acc, s ≠ .inl (.line m (StatusState.code acc)))
    (hs : headStep statusLine p s c = (o, .halt (.error (e, m)))) : e = .newLine ∧ c ≠ LF := by
  by_cases hc : c = LF
  · subst hc
    cases h with
    | code m acc => exact absurd rfl (hcode m acc)
    | _ => cases hs
  · refine ⟨?_, hc⟩
    cases h with
    | code m acc => exact absurd rfl (hcode m acc)
    | lead =>
      simp only [headStep, seq, leadStep, if_neg hc] at hs
      cases hs
      rfl
    | text k =>
      obtain ⟨o₁, hstep⟩ := headStep_line_error hs
      have hline : statusStep p .textCR c = (o₁, .halt (.error e)) := hstep
      simp only [statusStep, if_neg hc] at hline
      cases hline
      rfl
    | closing k =>
      simp only [headStep, seq, headerStep, lineStep, if_neg hc] at hs
      cases hs
      rfl
    | value k nm v =>
      simp only [headStep, seq, headerStep, lineStep, if_neg hc] at hs
      cases hs
      rfl

section

variable {a : List Byte} {c : Byte} {o o' : List (Nat × Event Slice)} {s : HeadState statusLine} {e e' : ParserError}
  {m : Nat}

/-- A CR outside the code. -/
theorem newLine_of_names (hlive : read statusLine a 0 = (o, .live s)) (hnames : StatusNames a c .newLine)
    (hs : headStep statusLine (0 + a.length) s c = (o', .halt (.error (e, m)))) : e = .newLine ∧ c ≠ LF := by
  obtain ⟨hlast, houtside⟩ := hnames
  refine (read_afterStatusCR hlive hlast).step ?_ hs
  rintro k acc rfl
  obtain ⟨lead, w', o₁, rfl, rfl, -, hreads, -⟩ := Httparsed.read_live (g := statusGrammar) hlive
  obtain ⟨cs, hat, hlen, -⟩ := code_atCode hreads lead
  have hfar := houtside cs hat
  omega

/-- **A prefix decides its code**: refused at `c`, a response is refused with the code that names it. -/
theorem statusNames_unique (hlive : read statusLine a 0 = (o, .live s))
    (hs : headStep statusLine (0 + a.length) s c = (o', .halt (.error (e, m)))) (hnames : StatusNames a c e') :
    e' = e := by
  have hread : read statusLine (a ++ c :: []) 0 = (o ++ o', .halted (.error (e, m)) []) := run_halt_at hlive hs []
  cases e' with
  | newLine => exact (newLine_of_names hlive hnames hs).1.symm
  | noVersion =>
    obtain ⟨⟨lead, rfl⟩, rfl⟩ := hnames
    have hstep : headStep statusLine (leadBytes lead).length
        (.inl (.line (leadBytes lead).length (statusLine.start (leadBytes lead).length))) SP =
          ([], .halt (.error (.noVersion, (leadBytes lead).length))) := rfl
    have hspace : run (headStep statusLine) 0 (.inl .begin) (leadBytes lead ++ SP :: []) = _ :=
      (run_leadBytes lead ⟨by decide, by decide⟩).trans (run_halt hstep [])
    have hlead : read statusLine (leadBytes lead ++ SP :: []) 0 = _ := hspace
    have houtcome := congrArg Prod.snd (hread.symm.trans hlead)
    cases houtcome
    rfl
  | noStatus =>
    obtain ⟨hat, hc⟩ := hnames
    obtain ⟨o₁, k, t, hlive', ⟨-, rfl⟩ | ⟨hno, -⟩⟩ := hat.live (by simp)
    · obtain rfl := read_state hlive hlive'
      obtain ⟨o₂, hstep⟩ := headStep_line_error hs
      have hline : statusStep (0 + a.length) .versionSpaces c = (o₂, .halt (.error e)) := hstep
      simp only [statusStep, if_pos hc] at hline
      cases hline
      rfl
    · exact absurd rfl hno
  | status =>
    obtain ⟨cs, hat, hlen, -⟩ := hnames
    obtain ⟨o₁, k, t, hlive', ⟨rfl, -⟩ | ⟨-, p, rfl⟩⟩ := hat.live hlen.le
    · cases hlen
    · obtain rfl := read_state hlive hlive'
      obtain ⟨o₂, hstep⟩ := headStep_line_error hs
      exact (@stepCode_refused _ ⟨p, cs⟩ _ _ _ hlen.le hstep).1.symm
  | noHeaderName =>
    obtain ⟨⟨lead, l, ls, hopens, rfl⟩, rfl⟩ := hnames
    have hstep : ∀ p k, headerStep p ⟨k, .lineStart (!ls.isEmpty)⟩ COLON =
        ([], .halt (.error (.noHeaderName, k))) := by
      intro p k
      cases ls <;> rfl
    have hlines := read_lines (g := statusGrammar) lead l hopens [COLON]
    rw [run_halt (hstep _ _)] at hlines
    have hlines' : read statusLine (leadBytes lead ++ l.bytes ++ linesBytes ls ++ [COLON]) 0 = _ := hlines
    have houtcome := congrArg Prod.snd (hread.symm.trans hlines')
    cases houtcome
    rfl
  | _ => exact hnames.elim

end

/-- **The error code of a response names the first offending byte.** The buffer up to that byte is the longest part
that is answered `partial`, and no other code fits. -/
theorem parseResponse_offence (simd : Simd) {h : Handler σ} (hn : h.NeverRejects) {b : List Byte}
    (hb : b.length < 2 ^ 31) (s : σ) {code : Int} (hcode : (Entry.response.observe simd h b 0 s).code = .ok code)
    (hneg : code < 0) (hmore : code ≠ err .partialData) :
    ∃ e p c, code = err e ∧
      IsGreatest {k | k ≤ b.length ∧ (Entry.response.observe simd h (b.take k) 0 s).code = .ok (err .partialData)} p ∧
      p < b.length ∧ b[p]? = some c ∧ (∀ e', Offence StatusNames (b.take p) c e' ↔ e' = e) ∧
      (e = .newLine → c ≠ LF) ∧
      e ∈ [ParserError.newLine, .noVersion, .noStatus, .status, .noHeaderName, .token] := by
  obtain ⟨e, a, c, rest, o, st, o', m, rfl, rfl, hlive, hstep, hgreatest⟩ :=
    Entry.response.refused_at simd hn hb s hcode hneg hmore
  have htake : (a ++ c :: rest).take a.length = a := List.take_left' rfl
  have hoffence := @offence_iff StatusNames a c e id (headStep_statusRefused hlive hstep)
    fun _ => statusNames_unique hlive hstep
  refine ⟨e, a.length, c, rfl, hgreatest, ?_, ?_, ?_, ?_, ?_⟩
  · rw [List.length_append, List.length_cons]
    omega
  · rw [List.getElem?_append_right (Nat.le_refl _), Nat.sub_self, List.getElem?_cons_zero]
  · rwa [htake]
  · rintro rfl
    exact (newLine_of_names hlive ((hoffence .newLine).2 rfl) hstep).2
  · have hself := (hoffence e).2 rfl
    cases e <;> first | exact hself.elim | simp

/-- A CR among the bytes of a code. -/
def crInCode : List Byte := ascii "HTTP/1.1 2\r\n\r\n"

/-- It is not the CR that is at fault, but the code it is in. -/
theorem parseResponse_offence_crInCode :
    ∃ e p c, (-5 : Int) = err e ∧
      IsGreatest {k | k ≤ crInCode.length ∧
        (Entry.response.observe .unrolled Handler.recorder (crInCode.take k) 0 ()).code = .ok (err .partialData)} p ∧
      p < crInCode.length ∧ crInCode[p]? = some c ∧ (∀ e', Offence StatusNames (crInCode.take p) c e' ↔ e' = e) ∧
      (e = .newLine → c ≠ LF) ∧
      e ∈ [ParserError.newLine, .noVersion, .noStatus, .status, .noHeaderName, .token] :=
  parseResponse_offence .unrolled Handler.recorder_neverRejects (by decide) () (by decide +kernel) (by decide)
    (by decide)

end Httparsed
