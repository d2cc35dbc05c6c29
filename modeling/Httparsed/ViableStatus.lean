import Httparsed.Viable

/-!
# The responses that are waited for in vain (httparsed.d:304-306)

The reader of responses looks at a status code when there is a byte behind its three. So it waits for some buffers
that no continuation completes: those that end in up to three bytes of a code that is none (`DoomedStatus`).
Everything else it waits for can be continued to a head (`parseResponse_viable`).
-/

namespace Httparsed

open Transducer Grammar

variable {σ : Type}

/-- `[EOL] version SP+ cs`, where `cs` begins neither with a SP nor with a line end. -/
def AtCode (b cs : List Byte) : Prop :=
  ∃ (lead : Option Eol) (v : Word versionByte) (g : Spaces), (∀ c ∈ cs.head?, c ≠ SP ∧ c ≠ CR ∧ c ≠ LF) ∧
    b = leadBytes lead ++ (v.bytes ++ (g.bytes ++ cs))

/-- The buffer ends in up to three bytes that no status code begins with. -/
def DoomedStatus (b : List Byte) : Prop :=
  ∃ cs, AtCode b cs ∧ cs.length ≤ 3 ∧ ∃ d ∈ cs, isDigit d = false

/-! ## Completions -/

theorem isDigit_zero : isDigit 0x30 = true := rfl

/-- The code 000. -/
def someCode : Code := ⟨0x30, 0x30, 0x30, isDigit_zero, isDigit_zero, isDigit_zero⟩

/-- A code begins with up to three digits. -/
theorem code_completable {c : Byte} {cs : List Byte} (hcs : cs.length ≤ 2) (h : ∀ d ∈ c :: cs, isDigit d = true) :
    ∃ (x : List Byte) (k : Code), x.length ≤ 2 ∧ c :: cs ++ x = k.bytes := by
  rcases cs with _ | ⟨d, _ | ⟨e, _ | ⟨f, cs⟩⟩⟩
  · exact ⟨[0x30, 0x30], ⟨c, 0x30, 0x30, h c (by simp), isDigit_zero, isDigit_zero⟩, by decide, rfl⟩
  · exact ⟨[0x30], ⟨c, d, 0x30, h c (by simp), h d (by simp), isDigit_zero⟩, by decide, rfl⟩
  · exact ⟨[], ⟨c, d, e, h c (by simp), h d (by simp), h e (by simp)⟩, by decide, rfl⟩
  · simp only [List.length_cons] at hcs
    omega

/-- Six bytes are enough to complete a status line, unless its code is none. -/
theorem statusLine_completable {p : Nat} {w : List Byte} {o : List (Event Slice)} {s : StatusState}
    (h : s.Reads p w o) :
    (∃ (x : List Byte) (l : StatusLine), x.length ≤ 6 ∧ w ++ x = l.bytes) ∨
      ∀ lead, DoomedStatus (leadBytes lead ++ w) := by
  cases s with
  | version acc =>
    obtain ⟨-, hw, -⟩ := h
    left
    by_cases hnil : w = []
    · subst hnil
      exact ⟨_, ⟨someVersion, oneSpace, someCode, ⟨[], by simp⟩, by simp, .lf⟩, by decide, rfl⟩
    · refine ⟨[SP, 0x30, 0x30, 0x30, LF], ⟨⟨w, hnil, hw⟩, oneSpace, someCode, ⟨[], by simp⟩, by simp, .lf⟩,
        by decide, ?_⟩
      simp [StatusLine.bytes, oneSpace, someCode, Code.bytes, Eol.bytes]
  | versionSpaces =>
    obtain ⟨v, g, rfl, -⟩ := h
    refine Or.inl ⟨[0x30, 0x30, 0x30, LF], ⟨v, g, someCode, ⟨[], by simp⟩, by simp, .lf⟩, by decide, ?_⟩
    simp [StatusLine.bytes, someCode, Code.bytes, Eol.bytes]
  | code acc =>
    obtain ⟨v, g, c, cs, rfl, -, hacc, h1, h2, h3, hcs, -⟩ := h
    rw [hacc]
    by_cases hdigits : ∀ d ∈ c :: cs, isDigit d = true
    · obtain ⟨x, k, hx, hk⟩ := code_completable hcs hdigits
      refine Or.inl ⟨x ++ [LF], ⟨v, g, k, ⟨[], by simp⟩, by simp, .lf⟩, ?_, ?_⟩
      · rw [List.length_append, List.length_singleton]
        omega
      · rw [StatusLine.bytes, ← hk]
        simp [Eol.bytes]
    · refine Or.inr fun lead => ⟨c :: cs, ⟨lead, v, g, ?_, ?_⟩, ?_, ?_⟩
      · rintro d ⟨⟩
        exact ⟨h1, h2, h3⟩
      · rw [List.append_assoc v.bytes]
      · rw [List.length_cons]
        omega
      · simpa only [not_forall, exists_prop, Bool.not_eq_true] using hdigits
  | text acc =>
    obtain ⟨v, g, k, t, rfl, hstart, -⟩ := h
    refine Or.inl ⟨[LF], ⟨v, g, k, ⟨t.bytes, t.all⟩, hstart, .lf⟩, by decide, rfl⟩
  | textCR =>
    obtain ⟨v, g, k, t, rfl, hstart, -⟩ := h
    refine Or.inl ⟨[LF], ⟨v, g, k, t, hstart, .crlf⟩, by decide, ?_⟩
    simp [StatusLine.bytes, Eol.bytes]

/-- **Wherever the reader of responses runs out of bytes**, at most sixteen more complete a head, or none do. -/
theorem status_completable {w : List Byte} {o : List (Nat × Event Slice)} {s : HeadState statusLine}
    (h : HeadState.Reads statusGrammar w o s) :
    (∃ (x : List Byte) (hd : Head statusGrammar.toStartSyntax), x.length ≤ 16 ∧ w ++ x = hd.bytes) ∨
      DoomedStatus w := by
  have hstart : ∃ l : StatusLine, ([0x31, SP, 0x30, 0x30, 0x30, LF] : List Byte) = l.bytes :=
    ⟨⟨someVersion, oneSpace, someCode, ⟨[], by simp⟩, by simp, .lf⟩, rfl⟩
  obtain ⟨l₀, hl₀⟩ := hstart
  rcases s with (_ | _ | ⟨m, t⟩) | s
  · obtain ⟨rfl, -⟩ := h
    obtain ⟨hd, hhd⟩ := head_of_start statusGrammar (w := []) none l₀ hl₀
    exact Or.inl ⟨_, hd, by decide, hhd⟩
  · obtain ⟨rfl, -⟩ := h
    obtain ⟨hd, hhd⟩ := head_of_start statusGrammar (w := [CR]) (some .crlf) l₀ (congrArg (fun y => CR :: LF :: y) hl₀)
    exact Or.inl ⟨_, hd, by decide, hhd⟩
  · obtain ⟨lead, w', o', -, rfl, -, hreads, -⟩ := h
    rcases statusLine_completable hreads with ⟨x, l, hx, hl⟩ | hdoomed
    · obtain ⟨hd, hhd⟩ := head_of_start statusGrammar (w := leadBytes lead ++ w') (x := x) lead l
        ((List.append_assoc _ _ _).trans (congrArg (leadBytes lead ++ ·) hl))
      refine Or.inl ⟨x ++ [LF], hd, ?_, hhd⟩
      rw [List.length_append, List.length_singleton]
      omega
    · exact Or.inr (hdoomed lead)
  · obtain ⟨lead, ph, w', o', rfl, -, hreads⟩ := h
    obtain ⟨x, ls, eol, hx, hopens, hw⟩ := header_completable hreads
    refine Or.inl ⟨x, ⟨lead, ph, ls, hopens, eol⟩, by omega, ?_⟩
    rw [List.append_assoc, hw, Head.bytes, List.append_assoc (leadBytes lead ++ _)]

/-! ## A code that is none -/

theorem statusStep_versionSpaces {c : Byte} (hc : c ≠ SP ∧ c ≠ CR ∧ c ≠ LF) (p : Nat) :
    statusStep p .versionSpaces c = statusStep p (.code ⟨p, []⟩) c := by
  simp only [statusStep, if_neg (not_or.2 hc.2), if_neg hc.1]

/-- A status line inside the reader of heads: still to be read, or refused. -/
theorem run_headStep_status {p : Nat} (m : Nat) {t t' : StatusState} {b : List Byte} {o : List (Event Slice)}
    (h : run statusStep p t b = (o, .live t')) :
    run (headStep statusLine) p (.inl (.line m t)) b = (o.map (Prod.mk m), .live (.inl (.line m t'))) := by
  have hline := run_headStep_line statusLine p m t b
  have hrun : run statusLine.step p t b = (o, .live t') := h
  rw [hrun] at hline
  exact hline.trans (congrArg (·, _) (List.append_nil _))

theorem run_headStep_statusError {p : Nat} (m : Nat) {t : StatusState} {b rest : List Byte} {o : List (Event Slice)}
    {e : ParserError} (h : run statusStep p t b = (o, .halted (.error e) rest)) :
    run (headStep statusLine) p (.inl (.line m t)) b = (o.map (Prod.mk m), .halted (.error (e, m)) rest) := by
  have hline := run_headStep_line statusLine p m t b
  have hrun : run statusLine.step p t b = (o, .halted (.error e) rest) := h
  rw [hrun] at hline
  exact hline.trans (congrArg (·, _) (List.append_nil _))

/-- The reader behind the version of a status line and its SPs. -/
theorem read_versionSpaces (lead : Option Eol) (v : Word versionByte) (g : Spaces) :
    ∃ o m, read statusLine (leadBytes lead ++ (v.bytes ++ g.bytes)) 0 = (o, .live (.inl (.line m .versionSpaces))) := by
  obtain ⟨d, ds, hv, hd, -⟩ := Word.exists_cons v
  have hversion : ∀ p, run statusStep p (.version ⟨p, []⟩) (v.bytes ++ g.bytes) =
      run statusStep (p + v.bytes.length) (.version ⟨p, v.bytes⟩) g.bytes := fun p =>
    run_collect StatusState.version
      (fun _ _ _ h => by simp only [statusStep, stepStatusVersion, h, ↓reduceIte]) v.all p ⟨p, []⟩ g.bytes
  have hspaces : ∀ p q, run statusStep p (.version ⟨q, v.bytes⟩) g.bytes =
      ([.onVersion ⟨q, v.bytes⟩], .live .versionSpaces) := by
    intro p q
    have hend : ∀ k, statusStep k (.version ⟨q, v.bytes⟩) SP = ([.onVersion ⟨q, v.bytes⟩], .more .versionSpaces) := by
      intro k
      simp only [statusStep, stepStatusVersion, if_neg v.nonempty]
      rfl
    have hrun := run_spaces StatusState.versionSpaces hend (fun _ => rfl) p g []
    rwa [List.append_nil] at hrun
  have hline := run_headStep_status (leadBytes lead).length ((hversion (leadBytes lead).length).trans (hspaces _ _))
  refine ⟨_, _, Eq.trans ?_ hline⟩
  unfold read
  rw [if_pos rfl, hv, List.cons_append, run_leadBytes lead (versionByte_plain hd).2]
  rfl

/-- The reader at the code. -/
theorem AtCode.read {b cs : List Byte} (h : AtCode b cs) : ∃ o m p, ∀ x,
    read statusLine (b ++ x) 0 = prepend o (run (headStep statusLine) p (.inl (.line m .versionSpaces)) (cs ++ x)) := by
  obtain ⟨lead, v, g, -, rfl⟩ := h
  obtain ⟨o, m, hlive⟩ := read_versionSpaces lead v g
  refine ⟨o, m, 0 + (leadBytes lead ++ (v.bytes ++ g.bytes)).length, fun x => ?_⟩
  have happ : leadBytes lead ++ (v.bytes ++ (g.bytes ++ cs)) ++ x =
      leadBytes lead ++ (v.bytes ++ g.bytes) ++ (cs ++ x) := by
    simp only [List.append_assoc]
  have hrun : run (headStep statusLine) 0 (.inl .begin) (leadBytes lead ++ (v.bytes ++ g.bytes)) =
      (o, .live (.inl (.line m .versionSpaces))) := hlive
  show run (headStep statusLine) 0 (.inl .begin) _ = _
  rw [happ, run_append, hrun]
  rfl

/-- Three bytes of a code are waited for. -/
theorem AtCode.live {b cs : List Byte} (h : AtCode b cs) (hlen : cs.length ≤ 3) :
    ∃ o m t, Httparsed.read statusLine b 0 = (o, .live (.inl (.line m t))) ∧
      (cs = [] ∧ t = .versionSpaces ∨ cs ≠ [] ∧ ∃ p, t = .code ⟨p, cs⟩) := by
  obtain ⟨o, m, p, hread⟩ := h.read
  have hb := hread []
  rw [List.append_nil, List.append_nil] at hb
  obtain ⟨-, -, -, hfirst, -⟩ := h
  rcases cs with _ | ⟨c, cs⟩
  · exact ⟨_, m, .versionSpaces, hb, Or.inl ⟨rfl, rfl⟩⟩
  · have hrun : run statusStep p .versionSpaces (c :: cs) = ([], .live (.code ⟨p, c :: cs⟩)) := by
      rw [run_cons_congr (statusStep_versionSpaces (hfirst c rfl) p)]
      rcases cs with _ | ⟨d, _ | ⟨e, _ | ⟨f, cs⟩⟩⟩
      · rfl
      · rfl
      · rfl
      · simp only [List.length_cons] at hlen
        omega
    have hcode := hb.trans (congrArg (prepend o) (run_headStep_status m hrun))
    exact ⟨_, m, .code ⟨p, c :: cs⟩, hcode, Or.inr ⟨List.cons_ne_nil c cs, p, rfl⟩⟩

/-- The byte behind three that are no code decides. -/
theorem run_codeRefused (p : Nat) {a b c : Byte} (h : isDigit a = false ∨ isDigit b = false ∨ isDigit c = false)
    (d : Byte) (rest : List Byte) :
    run statusStep p (.code ⟨p, []⟩) (a :: b :: c :: d :: rest) = ([], .halted (.error .status) rest) := by
  have hnone : codeValue [a, b, c] = none := by
    rcases h with h | h | h <;> simp [codeValue, h]
  have hstep : statusStep (p + 1 + 1 + 1) (.code ⟨p, [a, b, c]⟩) d = ([], .halt (.error .status)) := by
    simp only [statusStep, stepCode, hnone]
    rfl
  have h₁ : statusStep p (.code ⟨p, []⟩) a = ([], .more (.code ⟨p, [a]⟩)) := rfl
  have h₂ : statusStep (p + 1) (.code ⟨p, [a]⟩) b = ([], .more (.code ⟨p, [a, b]⟩)) := rfl
  have h₃ : statusStep (p + 1 + 1) (.code ⟨p, [a, b]⟩) c = ([], .more (.code ⟨p, [a, b, c]⟩)) := rfl
  rw [run_more h₁, run_more h₂, run_more h₃, run_halt hstep]
  rfl

/-- What is decided stays decided. -/
theorem read_append {l : StartLine} {b rest : List Byte} {o : List (Nat × Event Slice)}
    {v : Except (ParserError × Nat) Nat} (h : read l b 0 = (o, .halted v rest)) (x : List Byte) :
    read l (b ++ x) 0 = (o, .halted v (rest ++ x)) :=
  halted_append h x

theorem DoomedStatus.read_live {b : List Byte} (h : DoomedStatus b) : ∃ o s, read statusLine b 0 = (o, .live s) := by
  obtain ⟨cs, hat, hlen, -⟩ := h
  obtain ⟨o, m, t, hlive, -⟩ := hat.live hlen
  exact ⟨o, _, hlive⟩

/-- Three more bytes show that there is no code. -/
theorem DoomedStatus.read_refused {b x : List Byte} (h : DoomedStatus b) (hx : 3 ≤ x.length) :
    ∃ o m rest, read statusLine (b ++ x) 0 = (o, .halted (.error (.status, m)) rest) := by
  obtain ⟨cs, hat, hlen, d, hd, hdigit⟩ := h
  obtain ⟨o, m, p, hread⟩ := hat.read
  obtain ⟨-, -, -, hfirst, -⟩ := hat
  obtain ⟨x₁, x₂, x₃, xs, rfl⟩ : ∃ x₁ x₂ x₃ xs, x = x₁ :: x₂ :: x₃ :: xs := by
    rcases x with _ | ⟨x₁, _ | ⟨x₂, _ | ⟨x₃, xs⟩⟩⟩
    · cases hx
    · simp at hx
    · simp at hx
    · exact ⟨x₁, x₂, x₃, xs, rfl⟩
  rcases cs with _ | ⟨c, cs⟩
  · cases hd
  have hrun : ∃ rest, run statusStep p (.code ⟨p, []⟩) (c :: (cs ++ x₁ :: x₂ :: x₃ :: xs)) =
      ([], .halted (.error .status) rest) := by
    rcases cs with _ | ⟨b₂, _ | ⟨b₃, _ | ⟨b₄, cs⟩⟩⟩
    · obtain rfl : d = c := by simpa using hd
      exact ⟨_, run_codeRefused p (Or.inl hdigit) _ _⟩
    · have hmem : d = c ∨ d = b₂ := by simpa using hd
      refine ⟨_, run_codeRefused p ?_ _ _⟩
      rcases hmem with rfl | rfl
      · exact Or.inl hdigit
      · exact Or.inr (Or.inl hdigit)
    · have hmem : d = c ∨ d = b₂ ∨ d = b₃ := by simpa using hd
      refine ⟨_, run_codeRefused p ?_ _ _⟩
      rcases hmem with rfl | rfl | rfl
      · exact Or.inl hdigit
      · exact Or.inr (Or.inl hdigit)
      · exact Or.inr (Or.inr hdigit)
    · simp only [List.length_cons] at hlen
      omega
  obtain ⟨rest, hrest⟩ := hrun
  have hline := (run_cons_congr (statusStep_versionSpaces (hfirst c rfl) p) _).trans hrest
  exact ⟨_, m, rest, (hread _).trans (congrArg (prepend o) (run_headStep_statusError m hline))⟩

/-- No continuation completes a head. -/
theorem DoomedStatus.never {b : List Byte} (h : DoomedStatus b) (x : List Byte) :
    ¬ ∃ o k rest, read statusLine (b ++ x) 0 = (o, .halted (.ok k) rest) := by
  rintro ⟨o, k, rest, hread⟩
  obtain ⟨o', m, rest', hrefused⟩ := h.read_refused (x := x ++ [0, 0, 0]) (by simp)
  have hmore := read_append hread [0, 0, 0]
  rw [List.append_assoc, hrefused] at hmore
  cases hmore

/-! ## Viable prefixes -/

/-- The reader of responses is left undecided exactly on the strict beginnings of heads and on the doomed. -/
theorem read_live_iff_waits (b : List Byte) :
    (∃ o s, read statusLine b 0 = (o, .live s)) ↔
      ((¬ ∃ o k rest, read statusLine b 0 = (o, .halted (.ok k) rest)) ∧
        ∃ x o k rest, read statusLine (b ++ x) 0 = (o, .halted (.ok k) rest)) ∨ DoomedStatus b := by
  constructor
  · rintro ⟨o, s, hlive⟩
    rcases status_completable (Httparsed.read_live (g := statusGrammar) hlive) with ⟨x, hd, -, hx⟩ | hdoomed
    · refine Or.inl ⟨?_, x, headCalls statusGrammar hd, hd.bytes.length, [], ?_⟩
      · rintro ⟨o', k, rest, hread⟩
        rw [hlive] at hread
        cases hread
      · rw [hx]
        have hread := read_complete (g := statusGrammar) hd []
        rwa [List.append_nil] at hread
    · exact Or.inr hdoomed
  · rintro (⟨hno, x, o, k, rest, hread⟩ | hdoomed)
    · rcases hr : read statusLine b 0 with ⟨o₁, st | ⟨v, rest'⟩⟩
      · exact ⟨o₁, st, rfl⟩
      · have hstays := read_append hr x
        rw [hread] at hstays
        cases hstays
        exact absurd ⟨o, k, rest', hr⟩ hno
    · exact hdoomed.read_live

section

variable (simd : Simd) {h : Handler σ} {b : List Byte} (s : σ)

/-- The code of `parseResponse` is the one of the reader. -/
theorem parseResponse_code_iff (hn : h.NeverRejects) (hb : b.length < 2 ^ 31) {n : Int} :
    (Entry.response.observe simd h b 0 s).code = .ok n ↔ (answer statusLine b 0).code = n := by
  rw [Entry.response.observe_code simd hn hb (Nat.zero_le _) s, Except.ok.injEq]
  rfl

/-- A positive result means that a head was read, and a head is answered with its length. -/
theorem parseResponse_pos_iff (hn : h.NeverRejects) (hb : b.length < 2 ^ 31) :
    (∃ n : Nat, 0 < n ∧ (Entry.response.observe simd h b 0 s).code = .ok (n : Int)) ↔
      ∃ o k rest, read statusLine b 0 = (o, .halted (.ok k) rest) := by
  constructor
  · rintro ⟨n, hpos, hcode⟩
    exact Entry.response.observe_pos (by exact_mod_cast hpos) hcode
  · rintro ⟨o, k, rest, hread⟩
    obtain ⟨hd, rfl, -, -⟩ := read_sound (g := statusGrammar) hread
    exact ⟨hd.bytes.length, head_pos hd, (parseResponse_code_iff simd s hn hb).2 (answer_head statusGrammar hd rest).1⟩

/-- What is waited for and not doomed is completed by sixteen bytes at most. -/
theorem parseResponse_completed (hn : h.NeverRejects) (hb : b.length < 2 ^ 31 - 16)
    (hlive : ∃ o st, read statusLine b 0 = (o, .live st)) (hno : ¬ DoomedStatus b) :
    ∃ (x : List Byte) (n : Nat), x.length ≤ 16 ∧ 0 < n ∧
      (Entry.response.observe simd h (b ++ x) 0 s).code = .ok (n : Int) := by
  obtain ⟨o, st, hlive⟩ := hlive
  rcases status_completable (Httparsed.read_live (g := statusGrammar) hlive) with ⟨x, hd, hx, hbytes⟩ | hdoomed
  · have hlen : (b ++ x).length < 2 ^ 31 := by
      rw [List.length_append]
      omega
    have hans := (answer_head statusGrammar hd []).1
    rw [List.append_nil, ← hbytes] at hans
    exact ⟨x, hd.bytes.length, hx, head_pos hd, (parseResponse_code_iff simd s hn hlen).2 (hbytes ▸ hans)⟩
  · exact absurd hdoomed hno

/-- The doomed are refused with `status` once three more bytes are there. -/
theorem DoomedStatus.refused (hdoomed : DoomedStatus b) (hn : h.NeverRejects) {x : List Byte} (hx : 3 ≤ x.length)
    (hb : (b ++ x).length < 2 ^ 31) :
    (Entry.response.observe simd h (b ++ x) 0 s).code = .ok (err .status) := by
  obtain ⟨o, m, rest, hread⟩ := hdoomed.read_refused hx
  rw [parseResponse_code_iff simd s hn hb, answer, hread]
  rfl

end

/-- **`parseResponse` has the viable-prefix property but for codes that are none.** `partial` is answered exactly to
the buffers that do not begin with a head but can be continued to one, by sixteen bytes at most, and to those
that end in up to three bytes of a code that is none. The latter never become a response, and three more bytes
bring the answer `status`. -/
theorem parseResponse_viable (simd : Simd) {h : Handler σ} (hn : h.NeverRejects) {b : List Byte}
    (hb : b.length < 2 ^ 31 - 16) (s : σ) :
    ((Entry.response.observe simd h b 0 s).code = .ok (err .partialData) ↔
      ((¬ ∃ n : Nat, 0 < n ∧ (Entry.response.observe simd h b 0 s).code = .ok (n : Int)) ∧
        ∃ (x : List Byte) (n : Nat), 0 < n ∧ (Entry.response.observe simd h (b ++ x) 0 s).code = .ok (n : Int)) ∨
      DoomedStatus b) ∧
    ((Entry.response.observe simd h b 0 s).code = .ok (err .partialData) → ¬ DoomedStatus b →
      ∃ (x : List Byte) (n : Nat), x.length ≤ 16 ∧ 0 < n ∧
        (Entry.response.observe simd h (b ++ x) 0 s).code = .ok (n : Int)) ∧
    (DoomedStatus b →
      (∀ (x : List Byte) (n : Nat), 0 < n → (Entry.response.observe simd h (b ++ x) 0 s).code ≠ .ok (n : Int)) ∧
      ∀ x : List Byte, 3 ≤ x.length → (b ++ x).length < 2 ^ 31 →
        (Entry.response.observe simd h (b ++ x) 0 s).code = .ok (err .status)) := by
  have hb' : b.length < 2 ^ 31 := by omega
  have hmore := (parseResponse_code_iff simd s hn (n := err .partialData) hb').trans code_partial_iff
  have hshort := parseResponse_completed simd s hn hb
  rw [hmore, parseResponse_pos_iff simd s hn hb']
  refine ⟨⟨?_, ?_⟩, hshort, ?_⟩
  · intro hlive
    by_cases hdoomed : DoomedStatus b
    · exact Or.inr hdoomed
    · obtain ⟨hno, -⟩ := ((read_live_iff_waits b).1 hlive).resolve_right hdoomed
      obtain ⟨x, n, -, hpos, hx⟩ := hshort hlive hdoomed
      exact Or.inl ⟨hno, x, n, hpos, hx⟩
  · rintro (⟨hno, x, n, hpos, hx⟩ | hdoomed)
    · exact (read_live_iff_waits b).2
        (Or.inl ⟨hno, x, Entry.response.observe_pos (by exact_mod_cast hpos) hx⟩)
    · exact hdoomed.read_live
  · intro hdoomed
    refine ⟨?_, fun x hx hlen => hdoomed.refused simd s hn hx hlen⟩
    intro x n hpos hx
    exact hdoomed.never x (Entry.response.observe_pos (by exact_mod_cast hpos) hx)

/-- "HTTP/1.1 2x" can never become a response, and is told so three bytes later. -/
theorem parseResponse_viable_doomed :
    (Entry.response.observe .unrolled Handler.recorder (ascii "HTTP/1.1 2x") 0 ()).code = .ok (err .partialData) ∧
      ∀ x : List Byte, 3 ≤ x.length → (ascii "HTTP/1.1 2x" ++ x).length < 2 ^ 31 →
        (Entry.response.observe .unrolled Handler.recorder (ascii "HTTP/1.1 2x" ++ x) 0 ()).code =
          .ok (err .status) := by
  have hdoomed : DoomedStatus (ascii "HTTP/1.1 2x") := by
    refine ⟨[0x32, 0x78], ⟨none, word "HTTP/1.1" (by decide) (by decide), oneSpace, ?_, by decide +kernel⟩, by decide,
      ⟨0x78, by simp, by decide⟩⟩
    rintro c ⟨⟩
    exact ⟨by decide, by decide, by decide⟩
  obtain ⟨hwaits, -, hnever⟩ := parseResponse_viable .unrolled Handler.recorder_neverRejects
    (b := ascii "HTTP/1.1 2x") (by decide) ()
  exact ⟨hwaits.2 (Or.inr hdoomed), (hnever hdoomed).2⟩

end Httparsed
