import Httparsed.EndOfHead

/-!
# A request that can still become valid is waited for, any other one is refused

At every place at which the reader of requests can run out of bytes, at most sixteen more complete a head
(`head_completable`). A call on a buffer of any length is positive only when it has read one
(`Entry.parse_pos`). So `partial` is answered exactly to the buffers that can be continued to a head
(`parseRequest_viable`).
-/

namespace Httparsed

open Transducer Grammar

variable {σ : Type}

/-! ## Completions -/

/-- The shortest tokens, to complete a head with. -/
def someToken : Word tokenByte := Word.single 0x41 (by decide)

def someUri : Word uriByte := Word.single 0x2F (by decide)

def someVersion : Word versionByte := Word.single 0x31 (by decide)

/-- Eight bytes are enough to complete a request line. -/
theorem requestLine_completable {p : Nat} {w : List Byte} {o : List (Event Slice)} {s : RequestState}
    (h : s.Reads p w o) :
    ∃ (x : List Byte) (l : RequestLine), x.length ≤ 8 ∧ w ++ x = l.bytes := by
  cases s with
  | method acc =>
    obtain ⟨-, hw, -⟩ := h
    by_cases hnil : w = []
    · subst hnil
      exact ⟨_, ⟨someToken, oneSpace, someUri, oneSpace, someVersion, .lf⟩, by decide, rfl⟩
    · refine ⟨[SP, 0x2F, SP, 0x31, LF], ⟨⟨w, hnil, hw⟩, oneSpace, someUri, oneSpace, someVersion, .lf⟩, by decide, ?_⟩
      simp [RequestLine.bytes, oneSpace, someUri, someVersion, Eol.bytes]
  | methodSpaces =>
    obtain ⟨m, g, rfl, -⟩ := h
    refine ⟨[0x2F, SP, 0x31, LF], ⟨m, g, someUri, oneSpace, someVersion, .lf⟩, by decide, ?_⟩
    simp [RequestLine.bytes, oneSpace, someUri, someVersion, Eol.bytes]
  | uri acc =>
    obtain ⟨m, g, u, rfl, -, -⟩ := h
    refine ⟨[SP, 0x31, LF], ⟨m, g, u, oneSpace, someVersion, .lf⟩, by decide, ?_⟩
    simp [RequestLine.bytes, oneSpace, someVersion, Eol.bytes]
  | uriSpaces =>
    obtain ⟨m, g, u, g', rfl, -⟩ := h
    refine ⟨[0x31, LF], ⟨m, g, u, g', someVersion, .lf⟩, by decide, ?_⟩
    simp [RequestLine.bytes, someVersion, Eol.bytes]
  | version acc =>
    obtain ⟨m, g, u, g', v, rfl, -, -⟩ := h
    exact ⟨[LF], ⟨m, g, u, g', v, .lf⟩, by decide, rfl⟩
  | versionCR =>
    obtain ⟨m, g, u, g', v, rfl, -⟩ := h
    refine ⟨[LF], ⟨m, g, u, g', v, .crlf⟩, by decide, ?_⟩
    simp [RequestLine.bytes, Eol.bytes]

/-- Four bytes are enough to complete a line, or to close the head. -/
theorem line_completable {m : Nat} {later : Bool} {tail : List Byte} {phase : HeaderPhase}
    (h : phase.Reads m later tail) :
    ∃ x : List Byte, x.length ≤ 4 ∧
      ((∃ eol : Eol, tail ++ x = eol.bytes) ∨
        ∃ l : Line, (later = true ∨ l.content.isNamed = true) ∧ tail ++ x = l.bytes ++ [LF]) := by
  cases phase with
  | lineStart hasHeader =>
    obtain ⟨rfl, -⟩ := h
    exact ⟨[LF], by decide, Or.inl ⟨.lf, rfl⟩⟩
  | closingCR =>
    obtain rfl : tail = [CR] := h
    exact ⟨[LF], by decide, Or.inl ⟨.crlf, rfl⟩⟩
  | name acc =>
    obtain ⟨n, rfl, -⟩ := h
    refine ⟨[COLON, LF, LF], by decide, Or.inr ⟨⟨.named n ⟨[], by simp⟩, .lf⟩, Or.inr rfl, ?_⟩⟩
    simp [Line.bytes, Content.bytes, Eol.bytes]
  | blanks nm =>
    obtain ⟨n, raw, -, rfl, -⟩ := h
    exact ⟨[LF, LF], by decide, Or.inr ⟨⟨.named n raw, .lf⟩, Or.inr rfl, by simp [Line.bytes, Eol.bytes]⟩⟩
  | value nm acc =>
    obtain ⟨x, hlater, rfl, -⟩ := h
    exact ⟨[LF, LF], by decide, Or.inr ⟨⟨x, .lf⟩, hlater, by simp [Line.bytes, Eol.bytes]⟩⟩
  | valueCR nm acc =>
    obtain ⟨x, hlater, rfl, -⟩ := h
    exact ⟨[LF, LF], by decide, Or.inr ⟨⟨x, .crlf⟩, hlater, by simp [Line.bytes, Eol.bytes]⟩⟩

theorem header_completable {p : Nat} {w : List Byte} {o : List (Nat × Event Slice)} {s : HeaderState}
    (h : s.Reads p w o) :
    ∃ (x : List Byte) (ls : List Line) (eol : Eol), x.length ≤ 4 ∧ Opens ls ∧ w ++ x = linesBytes ls ++ eol.bytes := by
  obtain ⟨ls, tail, hopens, rfl, -, -, hphase⟩ := h
  obtain ⟨x, hx, ⟨eol, heol⟩ | ⟨l, hlater, hl⟩⟩ := line_completable hphase
  · exact ⟨x, ls, eol, hx, hopens, by rw [List.append_assoc, heol]⟩
  · refine ⟨x, ls ++ [l], .lf, hx, opens_append hopens hlater, ?_⟩
    rw [List.append_assoc, hl, linesBytes_append]
    simp [linesBytes, Eol.bytes]

/-- A head without header lines, from the text of its start line on. -/
theorem head_of_start {l : StartLine} (g : StartGrammar l) {w x : List Byte} (lead : Option Eol) (ph : g.Phrase)
    (h : w ++ x = leadBytes lead ++ g.bytes ph) : ∃ hd : Head g.toStartSyntax, w ++ (x ++ [LF]) = hd.bytes := by
  refine ⟨⟨lead, ph, [], by simp [Opens], .lf⟩, ?_⟩
  rw [← List.append_assoc, h]
  simp [Head.bytes, linesBytes, Eol.bytes]

/-- **Wherever the reader of requests runs out of bytes**, at most sixteen more complete a head. -/
theorem head_completable {w : List Byte} {o : List (Nat × Event Slice)} {s : HeadState requestLine}
    (h : HeadState.Reads requestGrammar w o s) :
    ∃ (x : List Byte) (hd : Head requestGrammar.toStartSyntax), x.length ≤ 16 ∧ w ++ x = hd.bytes := by
  have hstart : ∃ l : RequestLine, ([0x41, SP, 0x2F, SP, 0x31, LF] : List Byte) = l.bytes :=
    ⟨⟨someToken, oneSpace, someUri, oneSpace, someVersion, .lf⟩, rfl⟩
  obtain ⟨l₀, hl₀⟩ := hstart
  rcases s with (_ | _ | ⟨m, t⟩) | s
  · obtain ⟨rfl, -⟩ := h
    obtain ⟨hd, hhd⟩ := head_of_start requestGrammar (w := []) none l₀ hl₀
    exact ⟨_, hd, by decide, hhd⟩
  · obtain ⟨rfl, -⟩ := h
    obtain ⟨hd, hhd⟩ := head_of_start requestGrammar (w := [CR]) (some .crlf) l₀ (congrArg (fun y => CR :: LF :: y) hl₀)
    exact ⟨_, hd, by decide, hhd⟩
  · obtain ⟨lead, w', o', -, rfl, -, hreads, -⟩ := h
    obtain ⟨x, l, hx, hl⟩ := requestLine_completable hreads
    obtain ⟨hd, hhd⟩ := head_of_start requestGrammar (w := leadBytes lead ++ w') (x := x) lead l
      ((List.append_assoc _ _ _).trans (congrArg (leadBytes lead ++ ·) hl))
    refine ⟨x ++ [LF], hd, ?_, hhd⟩
    rw [List.length_append, List.length_singleton]
    omega
  · obtain ⟨lead, ph, w', o', rfl, -, hreads⟩ := h
    obtain ⟨x, ls, eol, hx, hopens, hw⟩ := header_completable hreads
    refine ⟨x, ⟨lead, ph, ls, hopens, eol⟩, by omega, ?_⟩
    rw [List.append_assoc, hw, Head.bytes, List.append_assoc (leadBytes lead ++ _)]

/-! ## Buffers of any length -/

/-- A callback is refused with its own negative answer. -/
theorem handOver_ret {ints : Ints} {h : Handler σ} {e : Event Slice} {s s' : σ} {code : Int}
    (hn : handOver ints h e s = (.error (.ret code), s')) : code < 0 := by
  cases e with
  | onHeader name value => exact notifyHeader_ret hn
  | _ =>
    obtain ⟨c, hc, hneg⟩ := notify_ret (h := h) hn
    rw [Stop.ret.inj hc]
    exact hneg

theorem verdict_pos {τ : Type} {ints : Ints} {mark : τ → Nat} {out : Outcome τ Byte (Except (ParserError × Nat) Nat)}
    {u : Unit} {n : Int} {m : Nat} (hv : verdict ints mark out (.ok u) = .ok (n, m)) (hn : 0 < n) :
    ∃ k rest, out = .halted (.ok k) rest := by
  have hcode : answerCode ints out = n := congrArg Prod.fst (Except.ok.inj hv)
  rcases out with s | ⟨⟨e, k⟩ | k, rest⟩
  · have := err_neg .partialData
    simp only [answerCode] at hcode
    omega
  · have := err_neg e
    simp only [answerCode] at hcode
    omega
  · exact ⟨k, rest, rfl⟩

/-- **A positive result means that a head was read**, on a buffer of any length and with any handler. -/
theorem Entry.observe_pos (entry : Entry) {simd : Simd} {h : Handler σ} {b : List Byte} {s : σ} {n : Int} (hn : 0 < n)
    (hcode : (entry.observe simd h b 0 s).code = .ok n) :
    ∃ o k rest, read entry.line b 0 = (o, .halted (.ok k) rest) := by
  have hparse := entry.parse_eq ⟨simd, Ints.d⟩ Ints.d_small h.logged b (Nat.zero_le _) (s, [])
  have hres : ∃ m, (entry.parse ⟨simd, Ints.d⟩ h.logged b 0 (s, [])).1 = .ok (n, m) := by
    unfold Report.code Entry.observe at hcode
    cases hp : (entry.parse ⟨simd, Ints.d⟩ h.logged b 0 (s, [])).1 with
    | error f =>
      simp only [hp] at hcode
      cases hcode
    | ok r =>
      simp only [hp] at hcode
      exact ⟨r.2, congrArg Except.ok (Prod.ext (Except.ok.inj hcode) rfl)⟩
  obtain ⟨m, hm⟩ := hres
  rw [hparse] at hm
  unfold deliver at hm
  cases ho : Veto.offer (handOver Ints.d h.logged) (read entry.line b 0).1 (s, []) with
  | mk r s' =>
    simp only [ho] at hm
    rcases r with ⟨k, code | f⟩ | u
    · obtain ⟨pre, e, post, s₁, -, -, hrefused⟩ := Veto.offer_split ho
      have hneg := handOver_ret hrefused
      have heq : code = n := congrArg Prod.fst (Except.ok.inj hm)
      omega
    · cases hm
    · obtain ⟨k, rest, hout⟩ := verdict_pos hm hn
      exact ⟨_, k, rest, Prod.ext rfl hout⟩

/-! ## Viable prefixes -/

/-- The reader of requests is left undecided exactly on the strict beginnings of heads. -/
theorem read_live_iff_viable (b : List Byte) :
    (∃ o s, read requestLine b 0 = (o, .live s)) ↔
      (¬ ∃ o k rest, read requestLine b 0 = (o, .halted (.ok k) rest)) ∧
      ∃ x o k rest, read requestLine (b ++ x) 0 = (o, .halted (.ok k) rest) := by
  have hcomplete : ∀ (w : List Byte) (o : List (Nat × Event Slice)) (s : HeadState requestLine),
      run (headStep requestLine) 0 (.inl .begin) w = (o, .live s) → ∃ (x : List Byte) (o' : List (Nat × Event Slice))
        (v : Except (ParserError × Nat) Nat) (rest : List Byte),
        run (headStep requestLine) 0 (.inl .begin) (w ++ x) = (o', .halted v rest) ∧ ∃ k, v = .ok k := by
    intro w o s h
    obtain ⟨x, hd, -, hx⟩ := head_completable (read_live (g := requestGrammar) (b := w) h)
    have hread := read_complete (g := requestGrammar) hd []
    rw [List.append_nil, ← hx] at hread
    exact ⟨x, _, _, _, hread, _, rfl⟩
  rw [show (∃ o s, read requestLine b 0 = (o, .live s)) ↔ _ from
    live_iff_viable (fun v => ∃ k, v = Except.ok k) hcomplete b]
  constructor
  · rintro ⟨hno, x, o, v, rest, hx, k, rfl⟩
    refine ⟨?_, x, o, k, rest, hx⟩
    rintro ⟨o', k', rest', h'⟩
    exact hno ⟨o', _, rest', h', k', rfl⟩
  · rintro ⟨hno, x, o, k, rest, hx⟩
    refine ⟨?_, x, o, _, rest, hx, k, rfl⟩
    rintro ⟨o', v, rest', h', k', rfl⟩
    exact hno ⟨o', k', rest', h'⟩

/-- **`parseRequest` has the viable-prefix property.** `partial` is answered exactly to the buffers that do not
begin with a head but can be continued to one; sixteen bytes are enough for that, and a buffer with an empty
line after some line end is none of them. -/
theorem parseRequest_viable (simd : Simd) {h : Handler σ} (hn : h.NeverRejects) {b : List Byte}
    (hb : b.length < 2 ^ 31 - 16) (s : σ) :
    ((Entry.request.observe simd h b 0 s).code = .ok (err .partialData) ↔
      (¬ ∃ n : Nat, 0 < n ∧ (Entry.request.observe simd h b 0 s).code = .ok (n : Int)) ∧
      ∃ (x : List Byte) (n : Nat), 0 < n ∧ (Entry.request.observe simd h (b ++ x) 0 s).code = .ok (n : Int)) ∧
    ((Entry.request.observe simd h b 0 s).code = .ok (err .partialData) →
      ∃ (x : List Byte) (n : Nat), x.length ≤ 16 ∧ 0 < n ∧
        (Entry.request.observe simd h (b ++ x) 0 s).code = .ok (n : Int)) ∧
    (HasBlankLine b → (Entry.request.observe simd h b 0 s).code ≠ .ok (err .partialData)) := by
  have hcode : ∀ {c : List Byte} {n : Int}, c.length < 2 ^ 31 →
      ((Entry.request.observe simd h c 0 s).code = .ok n ↔ (answer requestLine c 0).code = n) := by
    intro c n hc
    rw [Entry.request.observe_code simd hn hc (Nat.zero_le _) s, Except.ok.injEq]
    rfl
  have hb' : b.length < 2 ^ 31 := by omega
  have hmore := (hcode (n := err .partialData) hb').trans code_partial_iff
  have hshort : (∃ o s, read requestLine b 0 = (o, .live s)) →
      ∃ (x : List Byte) (n : Nat), x.length ≤ 16 ∧ 0 < n ∧
        (Entry.request.observe simd h (b ++ x) 0 s).code = .ok (n : Int) := by
    rintro ⟨o, st, hlive⟩
    obtain ⟨x, hd, hx, hbytes⟩ := head_completable (read_live (g := requestGrammar) hlive)
    refine ⟨x, hd.bytes.length, hx, head_pos hd, ?_⟩
    rw [hcode (by rw [List.length_append]; omega), hbytes]
    have hans := (answer_head requestGrammar hd []).1
    rwa [List.append_nil] at hans
  rw [hmore]
  refine ⟨⟨?_, ?_⟩, hshort, ?_⟩
  · intro hlive
    refine ⟨?_, ?_⟩
    · rintro ⟨n, hpos, hres⟩
      have hp := hmore.2 hlive
      rw [hres] at hp
      have hval := Except.ok.inj hp
      have := err_neg .partialData
      omega
    · obtain ⟨x, n, -, hpos, hx⟩ := hshort hlive
      exact ⟨x, n, hpos, hx⟩
  · rintro ⟨hno, x, n, hpos, hx⟩
    refine (read_live_iff_viable b).2 ⟨?_, ?_⟩
    · rintro ⟨o, k, rest, hread⟩
      obtain ⟨hd, hbytes, rfl, -⟩ := read_sound (g := requestGrammar) hread
      refine hno ⟨hd.bytes.length, head_pos hd, (hcode hb').2 ?_⟩
      rw [hbytes]
      exact (answer_head requestGrammar hd rest).1
    · obtain ⟨o, k, rest, hread⟩ := Entry.request.observe_pos (by exact_mod_cast hpos) hx
      exact ⟨x, o, k, rest, hread⟩
  · intro hblank hp
    obtain ⟨o, st, hlive⟩ := hmore.1 hp
    have htracks := read_live_tracks requestTracked hlive
    rw [watch_of_blankLine hblank] at htracks
    exact request_no_blankLine htracks

theorem parseRequest_viable_cut :
    ∃ (x : List Byte) (n : Nat), x.length ≤ 16 ∧ 0 < n ∧
      (Entry.request.observe .unrolled Handler.recorder (ascii "GET /a HTTP/1.1\r\nHost: b\r" ++ x) 0 ()).code =
        .ok (n : Int) :=
  (parseRequest_viable .unrolled Handler.recorder_neverRejects (b := ascii "GET /a HTTP/1.1\r\nHost: b\r")
    (by decide) ()).2.1
    (by decide +kernel)

end Httparsed
