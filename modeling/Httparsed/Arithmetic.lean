import Httparsed.Viable
import Httparsed.Resume

/-!
# Where the integers hold (httparsed.d:117-149, :196-221)

The parser keeps its offsets in `size_t`, but `lastPos` and the returned length pass through a 32-bit `int`,
and so does the length of a value that is trimmed. Here the two conversions are followed past 2^31, each on its
own: a head is reported right exactly when it is shorter than 2^31 bytes (`HeadEnds`), a value is stripped
right exactly when it is `Trimmable`, which every value shorter than 2^31 bytes is. The main result is
`lengths_exact_iff`.
-/

namespace Httparsed

open Transducer Grammar

variable {σ : Type}

/-! ## The trimming on 32-bit integers -/

/-- What the downward loop needs of a value that ends in a blank: the `int` it starts at, one less than the
length modulo 2^32, is not below the last byte to be kept, and the length that is left fits an `int`. -/
def Trimmable (w : List Byte) : Prop :=
  ∀ c ∈ w.getLast?, blank c = true →
    (w.rdropWhile blank).length ≤ (w.length - 1) % 2 ^ 32 ∧ (w.length - 1) % 2 ^ 32 ≤ 2 ^ 31 ∧
      (w.rdropWhile blank).length < 2 ^ 31

/-- A value shorter than 2^31 bytes always is. -/
theorem trimmable_of_lt {w : List Byte} (h : w.length < 2 ^ 31) : Trimmable w := by
  intro c hc hb
  have hlt := stripTrailing_lt hc hb
  have hmod : (w.length - 1) % 2 ^ 32 = w.length - 1 := Nat.mod_eq_of_lt (by omega)
  rw [hmod]
  omega

/-- Where the loop starts. -/
theorem wrap_start {n : Nat} (hn : 0 < n) :
    Ints.d.wrap (Ints.d.wrap n - 2) =
      if (n - 1) % 2 ^ 32 ≤ 2 ^ 31 then (((n - 1) % 2 ^ 32 : Nat) : Int) - 1
      else (((n - 1) % 2 ^ 32 : Nat) : Int) - 1 - 4294967296 := by
  show ((((n : Int) + 2147483648) % 4294967296 - 2147483648 - 2) + 2147483648) % 4294967296 - 2147483648 = _
  split_ifs <;> omega

theorem wrap_of_fits {x : Int} (h1 : -2147483648 ≤ x) (h2 : x < 2147483648) : Ints.d.wrap x = x := by
  show (x + 2147483648) % 4294967296 - 2147483648 = x
  omega

/-- A cut at a negative `int` is behind every value. -/
theorem slice_negative {value : Slice} (hsize : value.length < 2 ^ 63) {x : Int} (h1 : -2147483648 ≤ x) (h2 : x < 0) :
    value.slice 0 (sizeOfInt x) = .error (.fault .range) := by
  have hbehind : value.length < sizeOfInt x := by
    unfold sizeOfInt
    omega
  rw [Slice.slice, if_neg (by omega)]

theorem trimLoop_negative (value : Slice) (fuel : Nat) {j : Int} (hj : j < 0) :
    trimLoop value (fuel + 1) j = .ok j := by
  rw [trimLoop, if_neg (by omega)]

/-- The loop and the cut behind it, with `k` one less than the length modulo 2^32: the value is stripped right
unless more than `k` bytes are to be left, or the loop starts below zero, or 2^31 bytes are to be left. -/
theorem trim_d_iff {value : Slice} {k : Nat} (hk : k ≤ value.length) (hmod : k < 2 ^ 32)
    (hsize : value.length < 2 ^ 63) :
    (do
      let j ← trimLoop value (value.length + 1) (if k ≤ 2 ^ 31 then (k : Int) - 1 else (k : Int) - 1 - 4294967296)
      value.slice 0 (sizeOfInt (Ints.d.wrap (j + 1)))) = .ok value.stripTrailing ↔
      (value.bytes.rdropWhile blank).length ≤ k ∧ k ≤ 2 ^ 31 ∧ (value.bytes.rdropWhile blank).length < 2 ^ 31 := by
  by_cases hk31 : k ≤ 2 ^ 31
  · rw [if_pos hk31]
    have hlen : ((value.bytes.take k).rdropWhile blank).length ≤ k :=
      ((List.rdropWhile_prefix blank _).length_le).trans (List.length_take_le k value.bytes)
    by_cases hfit : ((value.bytes.take k).rdropWhile blank).length < 2 ^ 31
    · rw [trim_from hk hsize (wrap_of_fits (by omega) (by omega)), Except.ok.injEq, Slice.stripTrailing,
        Slice.mk.injEq, and_iff_right rfl, rdropWhile_take_iff]
      refine ⟨fun h => ⟨h, hk31, ?_⟩, fun h => h.1⟩
      rwa [(rdropWhile_take_iff blank value.bytes k).2 h] at hfit
    · -- 2^31 bytes are to be left: their number does not fit
      have hneg : Ints.d.wrap ((((value.bytes.take k).rdropWhile blank).length : Int) - 1 + 1) = -2147483648 := by
        show (((((value.bytes.take k).rdropWhile blank).length : Int) - 1 + 1) + 2147483648) % 4294967296 -
          2147483648 = _
        omega
      refine iff_of_false ?_ ?_
      · rw [trimLoop_eq value hk (by omega), ok_bind, hneg, slice_negative hsize (by omega) (by omega)]
        intro h
        cases h
      · rintro ⟨h1, -, h3⟩
        rw [(rdropWhile_take_iff blank value.bytes k).2 h1] at hfit
        exact hfit h3
  · -- the loop starts below zero
    refine iff_of_false ?_ fun h => hk31 h.2.1
    rw [if_neg hk31, trimLoop_negative value _ (by omega), ok_bind, wrap_of_fits (by omega) (by omega),
      slice_negative hsize (by omega) (by omega)]
    intro h
    cases h

/-- **When a value is stripped right.** Where it is not, a wrong part of it is left, or the cut traps. -/
theorem trimTrailing_d_iff {value : Slice} (hsize : value.length < 2 ^ 63) :
    trimTrailing Ints.d value = .ok value.stripTrailing ↔ Trimmable value.bytes := by
  rcases plain_or_blank value.bytes with hplain | ⟨c, hlast, hb⟩
  · refine iff_of_true (trimTrailing_plain hplain) fun c hc hb => ?_
    rw [hplain c hc] at hb
    cases hb
  · have hk : (value.length - 1) % 2 ^ 32 ≤ value.length := (Nat.mod_le _ _).trans (Nat.sub_le _ _)
    have hmod : (value.length - 1) % 2 ^ 32 < 2 ^ 32 := Nat.mod_lt _ (Nat.two_pow_pos 32)
    have hpos : 0 < value.length := length_pos_of_getLast? hlast
    rw [trimTrailing_blank hlast hb, wrap_start hpos, trim_d_iff hk hmod hsize]
    exact ⟨fun h _ _ _ => h, fun h => h c hlast hb⟩

/-! ## A call on any integers -/

section

variable {ints : Ints} {h : Handler σ} {e : Event Slice}

/-- A trimming that traps is never reported. -/
theorem handOver_trap (hc : ¬Cuts ints h e) : ∃ f, ∀ s, handOver ints h e s = (.error (.fault f), s) := by
  simp only [Cuts, not_forall] at hc
  obtain ⟨name, value, rfl, hm, hno⟩ := hc
  cases ht : trimTrailing ints value with
  | ok v => exact absurd ⟨v, ht⟩ hno
  | error stop =>
    obtain ⟨f, rfl⟩ := trimTrailing_error ht
    refine ⟨f, fun s => ?_⟩
    show notifyHeader ints h name value s = _
    rw [notifyHeader, if_pos hm, ht, lift_error_bind]
    rfl

/-- A handler that never rejects is only ever left by a fault. -/
theorem handOver_never (hn : h.NeverRejects) {s s' : σ} {stop : Stop} (ho : handOver ints h e s = (.error stop, s')) :
    ∃ f, stop = .fault f := by
  by_cases hc : Cuts ints h e
  · obtain ⟨s₁, hs₁⟩ := consult_accepts hn (e.cut ints) s
    rw [handOver_cut hc, hs₁] at ho
    cases ho
  · obtain ⟨f, hf⟩ := handOver_trap hc
    rw [hf] at ho
    cases ho
    exact ⟨f, rfl⟩

end

/-- **A call with callbacks that never reject**: it traps on a value whose trimming traps, or all values are cut
and the code and `lastPos` are what the integers make of them. -/
theorem Entry.observeOn_spec (entry : Entry) (t : Target) (ht : t.ints.Small) {h : Handler σ} (hn : h.NeverRejects)
    {b : List Byte} {lastPos : Nat} (hpos : lastPos ≤ b.length) (s : σ) :
    ((∃ x ∈ (read entry.line b lastPos).1, ¬Cuts t.ints h x.2) ∧
        ∃ f, (entry.observeOn t h b lastPos s).result = .error f) ∨
      ((∀ x ∈ (read entry.line b lastPos).1, Cuts t.ints h x.2) ∧
        (entry.observeOn t h b lastPos s).result = .ok (answerCode t.ints (read entry.line b lastPos).2,
          storedMark t.ints HeadState.mark (read entry.line b lastPos).2) ∧
        (entry.observeOn t h b lastPos s).calls =
          h.hears ((read entry.line b lastPos).1.map fun x => x.2.cut t.ints)) := by
  have hlogged : h.logged.NeverRejects := fun e u hm => hn e u.1 hm
  simp only [Entry.observeOn, entry.parse_eq t ht h.logged b hpos (s, []), deliver, Report.calls]
  by_cases hall : ∀ x ∈ (read entry.line b lastPos).1, Cuts t.ints h x.2
  · right
    have hoffer := Veto.offer_map (g := consult h.logged) (f := handOver t.ints h.logged) (Event.cut t.ints) Stop.ret
      (fun x hx s => handOver_cut (h := h.logged) (hall x hx) s) (s, [])
    have haccepts : ∀ x ∈ (read entry.line b lastPos).1.map (fun x => (x.1, x.2.cut t.ints)), ∀ u,
        ∃ u', consult h.logged x.2 u = (.ok ⟨⟩, u') := fun x _ u => consult_accepts hlogged x.2 u
    obtain ⟨s', ho⟩ := Veto.offer_accepting haccepts (s, [])
    rw [hoffer, ho]
    refine ⟨hall, rfl, ?_⟩
    have hheard := offer_heard ho
    rw [List.map_map] at hheard
    exact hheard
  · left
    obtain ⟨x, hx, hc⟩ : ∃ x ∈ (read entry.line b lastPos).1, ¬Cuts t.ints h x.2 := by simpa using hall
    refine ⟨⟨x, hx, hc⟩, ?_⟩
    rcases ho : Veto.offer (handOver t.ints h.logged) (read entry.line b lastPos).1 (s, []) with ⟨⟨m, stop⟩ | u, s'⟩
    · obtain ⟨pre, e, post, s₁, -, -, he⟩ := Veto.offer_split ho
      obtain ⟨f, rfl⟩ := handOver_never hlogged he
      exact ⟨f, rfl⟩
    · obtain ⟨s₁, s₂, u', hok⟩ := Veto.offer_accepted ho x hx
      obtain ⟨f, hf⟩ := handOver_trap (h := h.logged) hc
      rw [hf] at hok
      cases hok

/-! ## Heads and header lines of a buffer -/

/-- A message head ends at `n`. -/
def HeadEnds (y : StartSyntax) (b : List Byte) (lastPos n : Nat) : Prop :=
  ∃ (q : Nat) (ls : List Line) (eol : Eol) (rest : List Byte), Begins y b lastPos q ∧ Opens ls ∧
    b.drop q = linesBytes ls ++ (eol.bytes ++ rest) ∧ n = q + (linesBytes ls ++ eol.bytes).length

/-- `l` is a whole header line of the message. -/
def HeaderLine (y : StartSyntax) (b : List Byte) (lastPos : Nat) (l : Line) : Prop :=
  ∃ (q : Nat) (ls : List Line) (rest : List Byte), Begins y b lastPos q ∧ Opens (ls ++ [l]) ∧
    b.drop q = linesBytes (ls ++ [l]) ++ rest

theorem HeadEnds.pos {y : StartSyntax} {b : List Byte} {lastPos n : Nat} (h : HeadEnds y b lastPos n) : 0 < n := by
  obtain ⟨q, ls, eol, rest, -, -, -, rfl⟩ := h
  cases eol <;> simp only [Eol.bytes, List.length_append, List.length_cons, List.length_nil] <;> omega

section Sections

variable {l : StartLine} {g : StartGrammar l} {b : List Byte} {lastPos q : Nat}

/-- A call that does not get to the header section reports no header and completes no head. -/
theorem no_section (h : ¬∃ q, Begins g.toStartSyntax b lastPos q) :
    (∀ x ∈ (read l b lastPos).1, x.2.isHeader = false) ∧ ∀ n rest, (read l b lastPos).2 ≠ .halted (.ok n) rest := by
  have h0 : lastPos = 0 := by
    by_contra h0
    exact h ⟨lastPos, by rw [Begins, if_neg h0]⟩
  subst h0
  have hnone : ¬∃ q, StartLineEnd g.toStartSyntax b q := by
    rintro ⟨q, hq⟩
    exact h ⟨q, hq.begins⟩
  obtain ⟨hcode, -, -, hcalls⟩ := no_headerPart hnone
  constructor
  · intro x hx
    rw [← trim_isHeader]
    exact (hcalls (x.1, x.2.trim) (List.mem_map_of_mem hx)).1
  · intro n rest hr
    simp only [answer, hr, outcomeCode] at hcode
    omega

/-- **The header section as it is read**: whole lines, and behind them what ends the call. -/
theorem read_header (h : Begins g.toStartSyntax b lastPos q) :
    ∃ start ls tail, (∀ x ∈ start, x.2.isHeader = false) ∧ Opens ls ∧ b.drop q = linesBytes ls ++ tail ∧
      (read l b lastPos).1 = start ++ lineCalls q ls ∧
      ∀ n rest, (read l b lastPos).2 = .halted (.ok n) rest →
        ∃ eol : Eol, tail = eol.bytes ++ rest ∧ n = q + (linesBytes ls ++ eol.bytes).length := by
  obtain ⟨o, m, hno, -, hread⟩ := read_section h
  obtain ⟨ls, tail, hopens, hdrop, ho, hend⟩ := run_header_lines q (b.drop q)
  refine ⟨o.map (Prod.mk m), ls, tail, ?_, hopens, hdrop, ?_, ?_⟩
  · intro x hx
    obtain ⟨e, he, rfl⟩ := List.mem_map.1 hx
    exact hno e he
  · rw [hread, prepend_fst, ← ho]
    rfl
  · intro n rest hr
    rw [hread, prepend_snd] at hr
    rcases hout : (run headerStep q (headerStart q) (b.drop q)).2 with s | ⟨v, rest'⟩
    · simp only [inSnd, hout] at hr
      cases hr
    · simp only [inSnd, hout] at hr
      cases hr
      rw [hout] at hend
      exact hend

/-- **A call reads to the end of a head exactly where one ends.** -/
theorem headEnds_iff {n : Nat} :
    (∃ rest, (read l b lastPos).2 = .halted (.ok n) rest) ↔ HeadEnds g.toStartSyntax b lastPos n := by
  constructor
  · rintro ⟨rest, hr⟩
    by_cases hq : ∃ q, Begins g.toStartSyntax b lastPos q
    · obtain ⟨q, hq⟩ := hq
      obtain ⟨start, ls, tail, -, hopens, hdrop, -, hend⟩ := read_header hq
      obtain ⟨eol, rfl, hn⟩ := hend n rest hr
      exact ⟨q, ls, eol, rest, hq, hopens, hdrop, hn⟩
    · exact absurd hr ((no_section hq).2 n rest)
  · rintro ⟨q, ls, eol, rest, hq, hopens, hdrop, rfl⟩
    obtain ⟨o, m, -, -, hread⟩ := read_section hq
    refine ⟨rest, ?_⟩
    rw [hread, hdrop, headerStart, run_lines q ls (Or.inr hopens), run_closing]
    simp [prepend, inSnd, Nat.add_assoc]

/-- Every header callback is that of a whole header line. -/
theorem headerLine_of_call {x : Nat × Event Slice} (hx : x ∈ (read l b lastPos).1) (hh : x.2.isHeader = true) :
    ∃ line m, HeaderLine g.toStartSyntax b lastPos line ∧ x = (m, rawEvent m line.content) := by
  by_cases hq : ∃ q, Begins g.toStartSyntax b lastPos q
  · obtain ⟨q, hq⟩ := hq
    obtain ⟨start, ls, tail, hstart, hopens, hdrop, ho, -⟩ := read_header hq
    rw [ho] at hx
    rcases List.mem_append.1 hx with hx | hx
    · rw [hstart x hx] at hh
      cases hh
    · obtain ⟨pre, post, hsplit⟩ := List.append_of_mem hx
      obtain ⟨ls₁, line, ls₂, rfl, -, rfl⟩ := lineCalls_split hsplit
      have hsplit : ls₁ ++ line :: ls₂ = ls₁ ++ [line] ++ ls₂ := by simp
      refine ⟨line, _, ⟨q, ls₁, linesBytes ls₂ ++ tail, hq, ?_, ?_⟩, rfl⟩
      · cases ls₁ <;> exact hopens
      · rw [hdrop, hsplit, linesBytes_append, List.append_assoc]
  · rw [(no_section hq).1 x hx] at hh
    cases hh

/-- Every whole header line is reported. -/
theorem call_of_headerLine {line : Line} (h : HeaderLine g.toStartSyntax b lastPos line) :
    ∃ m, (m, rawEvent m line.content) ∈ (read l b lastPos).1 := by
  obtain ⟨q, ls, rest, hq, hopens, hdrop⟩ := h
  obtain ⟨o, m, -, -, hread⟩ := read_section hq
  refine ⟨q + (linesBytes ls).length, ?_⟩
  rw [hread, hdrop, headerStart, run_lines q _ (Or.inr hopens), lineCalls_append]
  simp [prepend, inSnd, lineCalls]

/-- No value of a completed head is longer than the head. -/
theorem valueLength_le_head (g : StartGrammar l) {n : Nat} {rest : List Byte}
    (hr : (read l b lastPos).2 = .halted (.ok n) rest) :
    ∀ x ∈ (read l b lastPos).1, x.2.valueLength ≤ n := by
  intro x hx
  by_cases hq : ∃ q, Begins g.toStartSyntax b lastPos q
  · obtain ⟨q, hq⟩ := hq
    obtain ⟨start, ls, tail, hstart, -, -, ho, hend⟩ := read_header hq
    obtain ⟨eol, -, rfl⟩ := hend n rest hr
    rw [ho] at hx
    rcases List.mem_append.1 hx with hx | hx
    · rw [valueLength_of_not_header (hstart x hx)]
      exact Nat.zero_le _
    · have hle := lineCalls_valueLength x hx
      rw [List.length_append]
      omega
  · exact absurd hr ((no_section hq).2 n rest)

end Sections

/-! ## Where a call is exact -/

theorem wrap_lt (x : Int) : Ints.d.wrap x < 2147483648 := by
  show (x + 2147483648) % 4294967296 - 2147483648 < 2147483648
  omega

/-- Changing the arguments of callbacks changes nothing in which of them are heard. -/
theorem hears_map (h : Handler σ) {k : Event Slice → Event Slice} (hk : ∀ e, (k e).member = e.member)
    (es : List (Event Slice)) : h.hears (es.map k) = (h.hears es).map k := by
  have hsame : ((fun e => h.has (Event.member e)) ∘ k) = fun e => h.has e.member := funext fun e => by
    rw [Function.comp_apply, hk]
  rw [Handler.hears, Handler.hears, List.filter_map, hsame]

/-- The bytes of a value do not depend on where it lies. -/
theorem rawValue_bytes (x : Content) (m : Nat) : (x.rawValue m).bytes = (x.rawValue 0).bytes := by
  cases x <;> rfl

/-- With unbounded integers a call is its answer, whatever the size of the buffer. -/
theorem Entry.observeOn_exact (entry : Entry) (simd : Simd) {h : Handler σ} (hn : h.NeverRejects) {b : List Byte}
    (hb : b.length < 2 ^ 63) {lastPos : Nat} (hpos : lastPos ≤ b.length) (s : σ) :
    (entry.observeOn ⟨simd, Ints.exact⟩ h b lastPos s).result =
        .ok ((answer entry.line b lastPos).code, (answer entry.line b lastPos).lastPos) ∧
      (entry.observeOn ⟨simd, Ints.exact⟩ h b lastPos s).calls = h.hears (answer entry.line b lastPos).events :=
  entry.observeOn_accepting ⟨simd, Ints.exact⟩ hn Ints.exact_small (Ints.exact_faithful hb) hpos s

/-- The code of an answer is the length of a head exactly where one ends. -/
theorem answer_code_iff {l : StartLine} (g : StartGrammar l) {b : List Byte} {lastPos n : Nat} :
    (answer l b lastPos).code = n ↔ HeadEnds g.toStartSyntax b lastPos n := by
  rw [← headEnds_iff (g := g)]
  constructor
  · intro hcode
    simp only [answer] at hcode
    rcases hr : (read l b lastPos).2 with s | ⟨⟨e, m⟩ | k, rest⟩
    · have := err_neg .partialData
      simp only [hr, outcomeCode] at hcode
      omega
    · have := err_neg e
      simp only [hr, outcomeCode] at hcode
      omega
    · simp only [hr, outcomeCode] at hcode
      obtain rfl : k = n := Int.ofNat_inj.1 hcode
      exact ⟨rest, rfl⟩
  · rintro ⟨rest, hr⟩
    simp only [answer, hr, outcomeCode]

/-- The real call returns the length of a head that the exact one completes, and leaves it in `lastPos`. -/
def LengthExact (real exact : Report σ) : Prop :=
  ∀ n : Nat, exact.code = .ok n → 0 < n ∧ real.result = .ok (n, n)

/-- The real call comes back, has made the calls of the exact one, and each header value it has reported is that
of a whole header line with the blanks at its end taken off, and nothing else. -/
structure ValuesExact (y : StartSyntax) (b : List Byte) (lastPos : Nat) (real exact : Report σ) : Prop where
  returns : ∀ f, real.result ≠ .error f
  calls : real.calls = exact.calls
  stripped : ∀ e ∈ real.calls, e.isHeader = true → ∃ l m, HeaderLine y b lastPos l ∧ e = l.event m

/-- The length of a head that ends in the buffer fits an `int`. -/
def HeadFits (y : StartSyntax) (b : List Byte) (lastPos : Nat) : Prop :=
  ∀ n, HeadEnds y b lastPos n → n < 2 ^ 31

/-- The values of the header lines can be trimmed, if the application has a use for headers. -/
def ValuesFit (y : StartSyntax) (h : Handler σ) (b : List Byte) (lastPos : Nat) : Prop :=
  h.has .onHeader = true → ∀ l, HeaderLine y b lastPos l → Trimmable (l.content.rawValue 0).bytes

section Exact

variable (entry : Entry) (simd : Simd) {h : Handler σ} {b : List Byte} {lastPos : Nat}

/-- The exact call completes a head exactly where one ends. -/
theorem Entry.exact_code_iff (hn : h.NeverRejects) (hb : b.length < 2 ^ 63) (hpos : lastPos ≤ b.length) (s : σ)
    {n : Nat} : (entry.observeOn ⟨simd, Ints.exact⟩ h b lastPos s).code = .ok (n : Int) ↔
      HeadEnds entry.grammar.toStartSyntax b lastPos n := by
  rw [Report.code, (entry.observeOn_exact simd hn hb hpos s).1, ← answer_code_iff]
  exact ⟨fun hcode => Except.ok.inj hcode, fun hcode => congrArg Except.ok hcode⟩

/-- The exact call makes the callbacks of the reader, the values stripped. -/
theorem Entry.exact_calls (hn : h.NeverRejects) (hb : b.length < 2 ^ 63) (hpos : lastPos ≤ b.length) (s : σ) :
    (entry.observeOn ⟨simd, Ints.exact⟩ h b lastPos s).calls =
      (h.hears ((read entry.line b lastPos).1.map Prod.snd)).map Event.trim := by
  rw [(entry.observeOn_exact simd hn hb hpos s).2, ← hears_map h trim_member, Answer.events, answer, List.map_map,
    List.map_map]
  rfl

/-- **The length is right exactly when it fits.** -/
theorem Entry.lengthExact_iff (hn : h.NeverRejects) (hb : b.length < 2 ^ 63) (hpos : lastPos ≤ b.length) (s : σ) :
    LengthExact (entry.observe simd h b lastPos s) (entry.observeOn ⟨simd, Ints.exact⟩ h b lastPos s) ↔
      HeadFits entry.grammar.toStartSyntax b lastPos := by
  have hspec := entry.observeOn_spec ⟨simd, Ints.d⟩ Ints.d_small hn hpos s
  constructor
  · intro hlen n hends
    obtain ⟨hn0, hreal⟩ := hlen n ((entry.exact_code_iff simd hn hb hpos s).2 hends)
    obtain ⟨rest, hr⟩ := headEnds_iff.2 hends
    rcases hspec with ⟨-, f, hf⟩ | ⟨-, hok, -⟩
    · cases hreal.symm.trans hf
    · rw [hr] at hok
      have hwrap : Ints.d.wrap (Ints.d.store n) = n := (Prod.mk.inj (Except.ok.inj (hok.symm.trans hreal))).1
      have hlt := wrap_lt (Ints.d.store n)
      omega
  · intro hfits n hcode
    have hends := (entry.exact_code_iff simd hn hb hpos s).1 hcode
    obtain ⟨rest, hr⟩ := headEnds_iff.2 hends
    have hf := Ints.d_faithful (hfits n hends)
    refine ⟨hends.pos, ?_⟩
    rcases hspec with ⟨⟨x, hx, hno⟩, -⟩ | ⟨-, hok, -⟩
    · -- a value inside the head is shorter than the head
      refine absurd ?_ hno
      rintro name value he -
      have hle := valueLength_le_head entry.grammar hr x hx
      rw [he] at hle
      exact ⟨_, trimTrailing_eq (hf.mono hle)⟩
    · have hwrap : Ints.d.wrap n = n := hf.wrap n (by omega) (Int.le_refl _)
      show (entry.observeOn ⟨simd, Ints.d⟩ h b lastPos s).result = _
      rw [hok, hr]
      simp only [answerCode, storedMark, hf.store (Nat.le_refl n), hwrap]

/-- A header is handed over stripped exactly when its value can be trimmed. -/
theorem cut_trim_iff (name : Option Slice) {value : Slice} (hsize : value.length < 2 ^ 63) :
    ((∃ v, trimTrailing Ints.d value = .ok v) ∧
        (Event.onHeader name value).cut Ints.d = (Event.onHeader name value).trim) ↔ Trimmable value.bytes := by
  rw [← trimTrailing_d_iff hsize]
  constructor
  · rintro ⟨⟨v, hv⟩, hcut⟩
    simp only [Event.cut, hv, Event.trim, Event.onHeader.injEq, true_and] at hcut
    rw [hv, hcut]
  · intro hv
    refine ⟨⟨_, hv⟩, ?_⟩
    simp only [Event.cut, hv, Event.trim]

/-- What the values that fit mean for the callbacks of a call. -/
theorem ValuesFit.cut {g : StartGrammar l} (hfit : ValuesFit g.toStartSyntax h b lastPos) (hb : b.length < 2 ^ 63)
    {x : Nat × Event Slice} (hx : x ∈ (read l b lastPos).1) (hm : h.has x.2.member = true) :
    Cuts Ints.d h x.2 ∧ x.2.cut Ints.d = x.2.trim := by
  cases hh : x.2.isHeader with
  | false =>
    cases hx2 : x.2 with
    | onHeader name value =>
      rw [hx2] at hh
      cases hh
    | _ =>
      refine ⟨?_, rfl⟩
      intro name value he
      cases he
  | true =>
    obtain ⟨line, m, hline, rfl⟩ := headerLine_of_call hx hh
    have hle := read_valueLength g b lastPos _ hx
    have htrim : Trimmable (line.content.rawValue m).bytes := by
      rw [rawValue_bytes]
      exact hfit hm line hline
    obtain ⟨hok, hcut⟩ := (cut_trim_iff (line.content.name m) (Nat.lt_of_le_of_lt hle hb)).2 htrim
    refine ⟨?_, hcut⟩
    rintro name value he -
    cases he
    exact hok

/-- **The values are right exactly when they fit.** -/
theorem Entry.valuesExact_iff (hn : h.NeverRejects) (hb : b.length < 2 ^ 63) (hpos : lastPos ≤ b.length) (s : σ) :
    ValuesExact entry.grammar.toStartSyntax b lastPos (entry.observe simd h b lastPos s)
        (entry.observeOn ⟨simd, Ints.exact⟩ h b lastPos s) ↔
      ValuesFit entry.grammar.toStartSyntax h b lastPos := by
  have hspec := entry.observeOn_spec ⟨simd, Ints.d⟩ Ints.d_small hn hpos s
  have hexact := entry.exact_calls simd hn hb hpos s
  have hreal : (h.hears ((read entry.line b lastPos).1.map fun x => x.2.cut Ints.d)) =
      (h.hears ((read entry.line b lastPos).1.map Prod.snd)).map (Event.cut Ints.d) := by
    rw [← hears_map h (cut_member Ints.d), List.map_map]
    rfl
  constructor
  · rintro ⟨hreturns, hcalls, -⟩ hm line hline
    obtain ⟨m, hx⟩ := call_of_headerLine hline
    rcases hspec with ⟨-, f, hf⟩ | ⟨hall, -, hd⟩
    · exact absurd hf (hreturns f)
    · have hmap := (hd.symm.trans hcalls).trans hexact
      rw [hreal, List.map_inj_left] at hmap
      have hheard : rawEvent m line.content ∈ h.hears ((read entry.line b lastPos).1.map Prod.snd) :=
        List.mem_filter.2 ⟨List.mem_map_of_mem hx, hm⟩
      have hle := read_valueLength entry.grammar b lastPos _ hx
      rw [← rawValue_bytes _ m]
      exact (cut_trim_iff (line.content.name m) (Nat.lt_of_le_of_lt hle hb)).1
        ⟨hall _ hx _ _ rfl hm, hmap _ hheard⟩
  · intro hfit
    have hcuts : ∀ x ∈ (read entry.line b lastPos).1, Cuts Ints.d h x.2 := by
      intro x hx name value he hm
      exact (hfit.cut hb hx (by rw [he]; exact hm)).1 name value he hm
    rcases hspec with ⟨⟨x, hx, hno⟩, -⟩ | ⟨-, hok, hd⟩
    · exact absurd (hcuts x hx) hno
    · have hsame : (entry.observe simd h b lastPos s).calls =
          (entry.observeOn ⟨simd, Ints.exact⟩ h b lastPos s).calls := by
        refine hd.trans ?_
        rw [hexact, hreal, List.map_inj_left]
        intro e he
        obtain ⟨hmem, hm⟩ := List.mem_filter.1 he
        obtain ⟨x, hx, rfl⟩ := List.mem_map.1 hmem
        exact (hfit.cut hb hx hm).2
      refine ⟨?_, hsame, ?_⟩
      · intro f hf
        cases hok.symm.trans hf
      · intro e he hh
        rw [hsame, hexact] at he
        obtain ⟨e', he', rfl⟩ := List.mem_map.1 he
        obtain ⟨hmem, -⟩ := List.mem_filter.1 he'
        obtain ⟨x, hx, rfl⟩ := List.mem_map.1 hmem
        rw [trim_isHeader] at hh
        obtain ⟨line, m, hline, rfl⟩ := headerLine_of_call hx hh
        exact ⟨line, m, hline, rfl⟩

end Exact

/-- **Where the lengths are exact**: the whole call is right exactly when both the head and the values fit the
integers, its length when the head does, its values when they do. -/
theorem lengths_exact_iff (entry : Entry) (simd : Simd) {h : Handler σ} (hn : h.NeverRejects) {b : List Byte}
    (hb : b.length < 2 ^ 63) {lastPos : Nat} (hpos : lastPos ≤ b.length) (s : σ) :
    (LengthExact (entry.observe simd h b lastPos s) (entry.observeOn ⟨simd, Ints.exact⟩ h b lastPos s) ∧
        ValuesExact entry.grammar.toStartSyntax b lastPos (entry.observe simd h b lastPos s)
          (entry.observeOn ⟨simd, Ints.exact⟩ h b lastPos s) ↔
      HeadFits entry.grammar.toStartSyntax b lastPos ∧ ValuesFit entry.grammar.toStartSyntax h b lastPos) ∧
    (LengthExact (entry.observe simd h b lastPos s) (entry.observeOn ⟨simd, Ints.exact⟩ h b lastPos s) ↔
      HeadFits entry.grammar.toStartSyntax b lastPos) ∧
    (ValuesExact entry.grammar.toStartSyntax b lastPos (entry.observe simd h b lastPos s)
        (entry.observeOn ⟨simd, Ints.exact⟩ h b lastPos s) ↔
      ValuesFit entry.grammar.toStartSyntax h b lastPos) := by
  have hlength := entry.lengthExact_iff simd hn hb hpos s
  have hvalues := entry.valuesExact_iff simd hn hb hpos s
  exact ⟨and_congr hlength hvalues, hlength, hvalues⟩

/-- Below 2^31 bytes everything fits. -/
theorem fits_of_lt (y : StartSyntax) (h : Handler σ) {b : List Byte} (hb : b.length < 2 ^ 31) (lastPos : Nat) :
    HeadFits y b lastPos ∧ ValuesFit y h b lastPos := by
  constructor
  · rintro n ⟨q, ls, eol, rest, -, -, hdrop, rfl⟩
    have hlen := congrArg List.length hdrop
    have heol : 0 < eol.bytes.length := by cases eol <;> exact Nat.succ_pos _
    simp only [List.length_drop, List.length_append] at hlen ⊢
    omega
  · rintro - l ⟨q, ls, rest, -, -, hdrop⟩
    have hlen := congrArg List.length hdrop
    have hle := rawValue_length 0 l.content
    simp only [List.length_drop, List.length_append, linesBytes, List.flatMap_append, List.flatMap_singleton,
      Line.bytes] at hlen
    refine trimmable_of_lt ?_
    rw [Slice.length] at hle
    omega

/-- A head with a value that ends in a SP and a HT. -/
def blanksBehind : List Byte := ascii "GET / HTTP/1.0\na: b \t\n\n"

/-- They are taken off. -/
theorem lengths_exact_iff_blanksBehind :
    (LengthExact (Entry.request.observe .unrolled Handler.recorder blanksBehind 0 ())
        (Entry.request.observeOn ⟨.unrolled, Ints.exact⟩ Handler.recorder blanksBehind 0 ()) ∧
      ValuesExact requestSyntax blanksBehind 0 (Entry.request.observe .unrolled Handler.recorder blanksBehind 0 ())
        (Entry.request.observeOn ⟨.unrolled, Ints.exact⟩ Handler.recorder blanksBehind 0 ())) ∧
      (Entry.request.observe .unrolled Handler.recorder blanksBehind 0 ()).calls.getLast? =
        some (.onHeader (some ⟨15, ascii "a"⟩) ⟨18, ascii "b"⟩) :=
  ⟨(lengths_exact_iff .request .unrolled Handler.recorder_neverRejects (b := blanksBehind) (by decide)
    (Nat.zero_le _) ()).1.2 (fits_of_lt requestSyntax Handler.recorder (by decide) 0), by decide +kernel⟩

/-- A head in front ends where its bytes do. -/
theorem headEnds_head {y : StartSyntax} (hd : Head y) (rest : List Byte) :
    HeadEnds y (hd.bytes ++ rest) 0 hd.bytes.length := by
  have hsplit : hd.bytes ++ rest =
      leadBytes hd.lead ++ y.bytes hd.start ++ (linesBytes hd.lines ++ (hd.eol.bytes ++ rest)) := by
    simp only [Head.bytes, List.append_assoc]
  refine ⟨hd.bodyOffset, hd.lines, hd.eol, rest, ?_, hd.opens, ?_, ?_⟩
  · rw [Begins, if_pos rfl]
    exact ⟨hd.lead, hd.start, _, hsplit, rfl⟩
  · rw [hsplit]
    exact List.drop_left' rfl
  · simp only [Head.bytes, Head.bodyOffset, List.length_append, Nat.add_assoc]

/-- A request with a URI of `n` bytes. -/
def longUri (n : Nat) : List Byte := ascii "GET " ++ (List.replicate n 0x61 ++ ascii " HTTP/1.0\n\n")

theorem longUri_length (n : Nat) : (longUri n).length = n + 15 := by
  rw [longUri, List.length_append, List.length_append, List.length_replicate]
  show 4 + (n + 11) = n + 15
  omega

/-- The bytes are those of a head. -/
theorem longUri_head (n : Nat) : ∃ hd : Head requestSyntax, hd.bytes = longUri (n + 1) ∧ hd.lines = [] := by
  have huri : ∀ c ∈ List.replicate (n + 1) (0x61 : Byte), uriByte c = true := by
    intro c hc
    rw [List.eq_of_mem_replicate hc]
    rfl
  have hopens : Opens [] := fun l hl => nomatch hl
  refine ⟨⟨none, { getLine with uri := ⟨_, List.cons_ne_nil _ _, huri⟩, eol := .lf }, [], hopens, .lf⟩, ?_, rfl⟩
  simp only [Head.bytes, requestSyntax, RequestLine.bytes, getLine, leadBytes, linesBytes, List.flatMap_nil,
    List.append_nil, List.nil_append, longUri, List.append_assoc]
  rfl

/-- A header line with a value of `n` bytes and two blanks behind it. -/
def longValue (n : Nat) : List Byte := ascii "GET / HTTP/1.0\nA:" ++ (List.replicate n 0x61 ++ ascii "  \n")

theorem longValue_length (n : Nat) : (longValue n).length = n + 20 := by
  rw [longValue, List.length_append, List.length_append, List.length_replicate]
  show 17 + (n + 3) = n + 20
  omega

/-- Its value is that of a whole header line. -/
theorem longValue_line (n : Nat) :
    ∃ l, HeaderLine requestSyntax (longValue (n + 1)) 0 l ∧
      (l.content.rawValue 0).bytes = List.replicate (n + 1) 0x61 ++ ascii "  " := by
  have htext : ∀ c ∈ List.replicate (n + 1) (0x61 : Byte) ++ ascii "  ", textByte c = true := by
    intro c hc
    rcases List.mem_append.1 hc with hc | hc
    · rw [List.eq_of_mem_replicate hc]
      rfl
    · exact List.all_eq_true.1 (show (ascii "  ").all textByte = true from rfl) c hc
  refine ⟨⟨.named (word "A" (by decide) (by decide)) ⟨List.replicate (n + 1) 0x61 ++ ascii "  ", htext⟩, .lf⟩, ?_, ?_⟩
  · refine ⟨15, [], [], ?_, ?_, ?_⟩
    · rw [Begins, if_pos rfl]
      exact ⟨none, { getLine with eol := .lf },
        ascii "A:" ++ (List.replicate (n + 1) 0x61 ++ ascii "  \n"), rfl, rfl⟩
    · intro l hl
      cases hl
      rfl
    · have hdrop : (longValue (n + 1)).drop 15 = ascii "A:" ++ (List.replicate (n + 1) 0x61 ++ ascii "  \n") := rfl
      rw [hdrop]
      simp only [linesBytes, List.nil_append, List.flatMap_singleton, Line.bytes, Content.bytes, List.append_nil,
        List.append_assoc, List.cons_append]
      rfl
  · rfl

/-- What both calls make of a head without header lines. -/
theorem observe_bare (entry : Entry) (simd : Simd) {h : Handler σ} (hn : h.NeverRejects)
    {hd : Head entry.grammar.toStartSyntax} {b : List Byte} (hbytes : hd.bytes = b) (hlines : hd.lines = [])
    (hb : b.length < 2 ^ 63) (s : σ) :
    (entry.observeOn ⟨simd, Ints.exact⟩ h b 0 s).code = .ok (b.length : Int) ∧
      (entry.observe simd h b 0 s).result = .ok (Ints.d.wrap (Ints.d.store b.length), Ints.d.store b.length) := by
  subst hbytes
  have hends := headEnds_head hd []
  have hread := read_complete (g := entry.grammar) hd []
  rw [List.append_nil] at hends hread
  refine ⟨(entry.exact_code_iff simd hn hb (Nat.zero_le _) s).2 hends, ?_⟩
  rcases entry.observeOn_spec ⟨simd, Ints.d⟩ Ints.d_small hn (Nat.zero_le hd.bytes.length) s with
    ⟨⟨x, hx, hno⟩, -⟩ | ⟨-, hok, -⟩
  · refine absurd ?_ hno
    rintro name value he -
    rw [hread, headCalls, hlines] at hx
    rcases List.mem_append.1 hx with hx | hx
    · obtain ⟨e, he', rfl⟩ := List.mem_map.1 hx
      have hnot := entry.grammar.notHeader _ _ e he'
      obtain rfl : e = .onHeader name value := he
      cases hnot
    · cases hx
  · show (entry.observeOn ⟨simd, Ints.d⟩ h hd.bytes 0 s).result = _
    rw [hok, hread]
    rfl

/-- A URI of 2^31 bytes, and a value of as many in front of two blanks. -/
theorem lengths_exact_iff_long :
    ((Entry.request.observeOn ⟨.unrolled, Ints.exact⟩ Handler.recorder (longUri 2147483648) 0 ()).code =
          .ok 2147483663 ∧
        (Entry.request.observe .unrolled Handler.recorder (longUri 2147483648) 0 ()).result =
          .ok (-2147483633, 2147483663) ∧
        ¬LengthExact (Entry.request.observe .unrolled Handler.recorder (longUri 2147483648) 0 ())
          (Entry.request.observeOn ⟨.unrolled, Ints.exact⟩ Handler.recorder (longUri 2147483648) 0 ())) ∧
      ¬ValuesExact requestSyntax (longValue 2147483648) 0
        (Entry.request.observe .unrolled Handler.recorder (longValue 2147483648) 0 ())
        (Entry.request.observeOn ⟨.unrolled, Ints.exact⟩ Handler.recorder (longValue 2147483648) 0 ()) := by
  have hn := Handler.recorder_neverRejects
  have hbig : (2147483647 + 1 : Nat) = 2147483648 := rfl
  constructor
  · obtain ⟨hd, hbytes, hlines⟩ := longUri_head 2147483647
    rw [hbig] at hbytes
    have hlen : (longUri 2147483648).length = 2147483663 := longUri_length 2147483648
    have hstore : Ints.d.store 2147483663 = 2147483663 := by
      show ((((2147483663 : Int) + 2147483648) % 4294967296 - 2147483648) % 4294967296).toNat = 2147483663
      omega
    have hwrap : Ints.d.wrap (2147483663 : Nat) = -2147483633 := by
      show ((2147483663 : Int) + 2147483648) % 4294967296 - 2147483648 = -2147483633
      omega
    obtain ⟨hexact, hreal⟩ := observe_bare .request .unrolled hn hbytes hlines (by rw [hlen]; omega) ()
    rw [hlen] at hexact hreal
    rw [hstore, hwrap] at hreal
    refine ⟨hexact, hreal, fun hlength => ?_⟩
    cases hreal.symm.trans (hlength 2147483663 hexact).2
  · intro hvalues
    obtain ⟨l, hline, hraw⟩ := longValue_line 2147483647
    rw [hbig] at hline hraw
    have hsize : (longValue 2147483648).length < 2 ^ 63 := by
      rw [longValue_length]
      omega
    have hfit := (Entry.request.valuesExact_iff .unrolled hn hsize (Nat.zero_le _) ()).1 hvalues rfl l hline
    rw [hraw] at hfit
    have hlast : (List.replicate 2147483648 (0x61 : Byte) ++ ascii "  ").getLast? = some SP := by
      rw [List.getLast?_append]
      rfl
    have hstart := (hfit SP hlast rfl).2.1
    rw [List.length_append, List.length_replicate] at hstart
    exact absurd hstart (by decide)

end Httparsed
