import Httparsed.Callbacks
import Mathlib.Data.List.Chain

/-!
# Runs of calls on a growing buffer (httparsed.d:917, unittest "Incremental")

An application calls an entry point again whenever more data has arrived, with the `lastPos` of the call
before. `session` is such a run. `Entry.session_rule` is its induction: what one call preserves of `lastPos`
holds all along. So the assertion of `parse` never fails, `lastPos` never goes back and always stands at the
start of a line, and the header lines before it have been reported, each once (`lastPos_invariant`).
-/

namespace Httparsed

open Transducer Grammar

variable {σ : Type}

/-- One call of a run: its buffer, the `lastPos` it is given, and what it does. -/
structure Call (σ : Type) where
  buffer : List Byte
  before : Nat
  report : Report σ

/-- One call after the other, each with the `lastPos` and the application state that the one before it has left. -/
def Entry.session (entry : Entry) (simd : Simd) (h : Handler σ) : List (List Byte) → Nat → σ → List (Call σ)
  | [], _, _ => []
  | b :: bs, lastPos, s =>
    match (entry.observe simd h b lastPos s).result with
    | .error _ => [⟨b, lastPos, entry.observe simd h b lastPos s⟩]
    | .ok (_, lastPos') =>
      ⟨b, lastPos, entry.observe simd h b lastPos s⟩ ::
        entry.session simd h bs lastPos' (entry.observe simd h b lastPos s).state

/-- Buffers that grow, each below 2^31 bytes. -/
structure Growing (bs : List (List Byte)) : Prop where
  chain : bs.IsChain (· <+: ·)
  short : ∀ b ∈ bs, b.length < 2 ^ 31

theorem Growing.tail {b : List Byte} {bs : List (List Byte)} (h : Growing (b :: bs)) : Growing bs :=
  ⟨(List.isChain_cons.1 h.chain).2, fun c hc => h.short c (List.mem_cons_of_mem _ hc)⟩

theorem Growing.head_le {b : List Byte} {bs : List (List Byte)} (h : Growing (b :: bs)) : ∀ c ∈ bs, b <+: c := by
  let _ : @Trans (List Byte) (List Byte) (List Byte) (· <+: ·) (· <+: ·) (· <+: ·) := ⟨List.IsPrefix.trans⟩
  exact (List.pairwise_cons.1 (List.isChain_iff_pairwise.1 h.chain)).1

theorem Growing.next_le {b : List Byte} {bs : List (List Byte)} (h : Growing (b :: bs)) : ∀ c ∈ bs.head?, b <+: c :=
  (List.isChain_cons.1 h.chain).1

theorem Entry.session_cons {entry : Entry} {simd : Simd} {h : Handler σ} {b : List Byte} {lastPos n : Nat} {s : σ}
    {code : Int} (hres : (entry.observe simd h b lastPos s).result = .ok (code, n)) (bs : List (List Byte)) :
    entry.session simd h (b :: bs) lastPos s = ⟨b, lastPos, entry.observe simd h b lastPos s⟩ ::
      entry.session simd h bs n (entry.observe simd h b lastPos s).state := by
  rw [Entry.session, hres]

theorem Entry.session_nonempty (entry : Entry) (simd : Simd) (h : Handler σ) (b : List Byte) (bs : List (List Byte))
    (lastPos : Nat) (s : σ) : ∃ c calls, entry.session simd h (b :: bs) lastPos s = c :: calls := by
  rw [Entry.session]
  split
  · exact ⟨_, _, rfl⟩
  · exact ⟨_, _, rfl⟩

theorem Entry.session_head (entry : Entry) (simd : Simd) (h : Handler σ) (bs : List (List Byte)) (lastPos : Nat)
    (s : σ) : ∀ c ∈ (entry.session simd h bs lastPos s).head?, c.before = lastPos := by
  intro c hc
  cases bs with
  | nil => cases hc
  | cons b bs =>
    rw [Entry.session] at hc
    split at hc <;> cases hc <;> rfl

/-! ## The invariant of `lastPos` -/

/-- A call can be made with this `lastPos`: it is the start of a line of the buffer. -/
def Ready (b : List Byte) (lastPos : Nat) : Prop := lastPos ≤ b.length ∧ LineStart b lastPos

theorem Ready.grow {b c : List Byte} {lastPos : Nat} (h : Ready b lastPos) (hbc : b <+: c) : Ready c lastPos := by
  obtain ⟨x, rfl⟩ := hbc
  exact ⟨h.1.trans (List.prefix_append b x).length_le, h.2.append x⟩

/-- **One call** of any application: no fault, and a `lastPos` that is again the start of a line. -/
theorem Entry.call_ready (entry : Entry) (simd : Simd) (h : Handler σ) {b : List Byte} (hb : b.length < 2 ^ 31)
    {lastPos : Nat} (hr : Ready b lastPos) (s : σ) :
    ∃ code n, (entry.observe simd h b lastPos s).result = .ok (code, n) ∧ lastPos ≤ n ∧ Ready b n := by
  obtain ⟨hlast, hmarks⟩ := answer_marks entry.grammar hr.1 hr.2
  rcases entry.observe_spec simd h hb hr.1 s with ⟨-, -, hres⟩ | ⟨pre, m, e, post, log, r, hsplit, -, -, -, -, -, hres⟩
  · exact ⟨_, _, hres, hlast⟩
  · exact ⟨r, m, hres, hmarks (m, e) (by rw [hsplit]; simp)⟩

/-- **The rule of runs**: what every call from a ready `lastPos` does, every call of a run does. -/
theorem Entry.session_rule (entry : Entry) (simd : Simd) (h : Handler σ) {P : Call σ → Prop}
    (hP : ∀ b lastPos s, b.length < 2 ^ 31 → Ready b lastPos → P ⟨b, lastPos, entry.observe simd h b lastPos s⟩)
    {bs : List (List Byte)} (hbs : Growing bs) {lastPos : Nat} (hr : ∀ b ∈ bs.head?, Ready b lastPos) (s : σ) :
    (entry.session simd h bs lastPos s).map Call.buffer = bs ∧ ∀ c ∈ entry.session simd h bs lastPos s, P c := by
  induction bs generalizing lastPos s with
  | nil => exact ⟨rfl, fun c hc => absurd hc (List.not_mem_nil)⟩
  | cons b bs ih =>
    have hb := hbs.short b (List.mem_cons_self ..)
    have hready := hr b rfl
    obtain ⟨code, n, hres, -, hn⟩ := entry.call_ready simd h hb hready s
    obtain ⟨h1, h2⟩ := ih hbs.tail (fun c hc => hn.grow (hbs.next_le c hc)) (entry.observe simd h b lastPos s).state
    rw [Entry.session_cons hres]
    refine ⟨congrArg (b :: ·) h1, ?_⟩
    intro c hc
    rcases List.mem_cons.1 hc with rfl | hc
    · exact hP b lastPos s hb hready
    · exact h2 c hc

/-! ## The lines of a call -/

/-- Where a call begins reading headers: at its `lastPos`, or behind its start line. -/
def Call.BeginsAt (y : StartSyntax) (c : Call σ) (q : Nat) : Prop :=
  if c.before = 0 then StartLineEnd y c.buffer q else q = c.before

/-- The call stops before the end of its start line, and makes no header callback. -/
def Call.StopsBeforeHeaders (y : StartSyntax) (c : Call σ) : Prop :=
  c.before = 0 ∧ (¬ ∃ q, StartLineEnd y c.buffer q) ∧ c.report.headers = []

/-- The header callbacks `es` are the lines from `q` up to the `lastPos` the call leaves behind, less the closing
empty line if it completes. -/
def Call.EndsWith (h : Handler σ) (c : Call σ) (q : Nat) (es : List (Event Slice)) : Prop :=
  ∃ code n ls, c.report.result = .ok (code, n) ∧ Covers c.buffer code q n ls ∧ es = h.hears (linesEvents q ls)

/-- The call does not complete. -/
def Call.Unfinished (c : Call σ) : Prop := ∀ code n, c.report.result = .ok (code, n) → ¬ 0 < code

/-- **The headers of one call** of an application that rejects nothing. -/
theorem Entry.call_lines (entry : Entry) (simd : Simd) {h : Handler σ} (hn : h.NeverRejects) {b : List Byte}
    (hb : b.length < 2 ^ 31) {lastPos : Nat} (hpos : lastPos ≤ b.length) (s : σ) (c : Call σ)
    (hc : c = ⟨b, lastPos, entry.observe simd h b lastPos s⟩) :
    (∃ q, c.BeginsAt entry.grammar.toStartSyntax q ∧ c.EndsWith h q c.report.headers) ∨
      c.StopsBeforeHeaders entry.grammar.toStartSyntax := by
  subst hc
  obtain ⟨hres, hcalls⟩ := entry.observe_accepting simd hn hb hpos s
  rcases headerPart_or_none entry.grammar hpos with ⟨q, ls, hpart⟩ | ⟨rfl, hq, hno⟩
  · left
    obtain ⟨start, hstart, hno⟩ := hpart.calls
    refine ⟨q, hpart.begins, _, _, ls, hres, hpart.covers, ?_⟩
    show (entry.observe simd h b lastPos s).calls.filter Event.isHeader = _
    rw [hcalls, Answer.events, hstart, hears_headers, headers_of_calls fun x hx => (hno x hx).1]
  · right
    refine ⟨rfl, hq, ?_⟩
    show (entry.observe simd h b 0 s).calls.filter Event.isHeader = []
    rw [hcalls, Answer.events, hears_headers, filter_isHeader_nil hno]
    rfl

/-! ## The lines of a run -/

/-- The lines of a call and of the calls after it, put together. -/
theorem Covers.trans {b c : List Byte} {code code' : Int} {q m n : Nat} {ls ls' : List Line} (h : Covers b code q m ls)
    (hcode : ¬ 0 < code) (hq : q ≤ b.length) (hbc : b <+: c) (h' : Covers c code' m n ls') :
    m = q + (linesBytes ls).length ∧ Covers c code' q n (ls ++ ls') := by
  obtain ⟨closing, post, hb, rfl, hend⟩ := h
  obtain ⟨closing', post', hc, rfl, hend'⟩ := h'
  obtain ⟨x, rfl⟩ := hbc
  have hclosing : closing = [] := by
    rcases hend with ⟨-, hnil⟩ | ⟨hlen, eol, rfl⟩
    · exact hnil
    · obtain ⟨d, ds, hd, -⟩ := Eol.exists_cons eol []
      have hpos := congrArg List.length hd
      simp only [List.append_nil, List.length_cons] at hpos
      simp only [List.length_append] at hlen
      omega
  subst hclosing
  rw [List.append_nil] at hc hend' ⊢
  refine ⟨rfl, closing', post', ?_, ?_, hend'⟩
  · have hdrop : (b ++ x).drop q = linesBytes ls ++ (post ++ x) := by
      rw [List.drop_append_of_le_length hq, hb, List.nil_append, List.append_assoc]
    rw [← List.drop_drop, hdrop, List.drop_left' rfl] at hc
    rw [hdrop, hc, linesBytes_append, List.append_assoc]
  · simp only [linesBytes_append, List.length_append]
    omega

theorem linesEvents_append (p : Nat) (ls ls' : List Line) :
    linesEvents p (ls ++ ls') = linesEvents p ls ++ linesEvents (p + (linesBytes ls).length) ls' := by
  rw [← headerCalls_events, headerCalls_append, List.map_append, headerCalls_events, headerCalls_events]

theorem Call.BeginsAt.pos {l : StartLine} {g : StartGrammar l} {c : Call σ} {q : Nat}
    (h : c.BeginsAt g.toStartSyntax q) : 0 < q := by
  unfold Call.BeginsAt at h
  split_ifs at h with h0
  · exact h.pos
  · omega

theorem Call.EndsWith.le {h : Handler σ} {c : Call σ} {q n : Nat} {code : Int} {es : List (Event Slice)}
    (hc : c.EndsWith h q es) (hres : c.report.result = .ok (code, n)) : q ≤ n := by
  obtain ⟨code', n', ls, hres', ⟨closing, post, -, hlen, -⟩, -⟩ := hc
  rw [hres] at hres'
  cases hres'
  omega

/-- What two calls report, the second going on where the first has stopped without completing. -/
theorem Call.EndsWith.trans {h : Handler σ} {c d : Call σ} {q n : Nat} {code : Int} {es es' : List (Event Slice)}
    (hc : c.EndsWith h q es) (hres : c.report.result = .ok (code, n)) (hcode : c.Unfinished) (hn : n ≤ c.buffer.length)
    (hbuffer : c.buffer <+: d.buffer) (hd : d.EndsWith h n es') : d.EndsWith h q (es ++ es') := by
  have hq := hc.le hres
  obtain ⟨code₁, n₁, ls, hres₁, hcovers, rfl⟩ := hc
  rw [hres] at hres₁
  cases hres₁
  obtain ⟨code', n', ls', hres', hcovers', rfl⟩ := hd
  obtain ⟨rfl, htrans⟩ := hcovers.trans (hcode _ _ hres) (hq.trans hn) hbuffer hcovers'
  exact ⟨code', n', ls ++ ls', hres', htrans, by rw [← hears_append, ← linesEvents_append]⟩

theorem Call.BeginsAt.resumed {y : StartSyntax} {c : Call σ} {q : Nat} (h : c.BeginsAt y q) (h0 : c.before ≠ 0) :
    q = c.before := by
  rwa [Call.BeginsAt, if_neg h0] at h

/-- The calls report the lines from where the first of them gets to the headers up to where the last one stops,
each once and in order. -/
def ReportsLines (y : StartSyntax) (h : Handler σ) (lastPos : Nat) (calls : List (Call σ)) : Prop :=
  (∀ c ∈ calls, c.StopsBeforeHeaders y) ∨
    ∃ c₀ ∈ calls, ∃ q, c₀.BeginsAt y q ∧ (lastPos ≠ 0 → q = lastPos) ∧
      ∀ c ∈ calls.getLast?, c.EndsWith h q (calls.flatMap fun c => c.report.headers)

section

variable {y : StartSyntax} {h : Handler σ} {c d : Call σ} {calls : List (Call σ)} {n q : Nat}

theorem ReportsLines.single
    (hlines : (∃ q, c.BeginsAt y q ∧ c.EndsWith h q c.report.headers) ∨ c.StopsBeforeHeaders y) :
    ReportsLines y h c.before [c] := by
  rcases hlines with ⟨q, hq, hend⟩ | hstop
  · refine Or.inr ⟨c, List.mem_cons_self .., q, hq, hq.resumed, ?_⟩
    intro c' hc'
    obtain rfl : c = c' := by simpa using hc'
    simpa using hend
  · left
    intro c' hc'
    rw [List.mem_singleton.1 hc']
    exact hstop

/-- A call that stops before the headers reports nothing. -/
theorem ReportsLines.stopped (hstop : c.StopsBeforeHeaders y) (hrest : ReportsLines y h n (d :: calls)) :
    ReportsLines y h c.before (c :: d :: calls) := by
  rcases hrest with hnone | ⟨c₀, hc₀, q, hq, -, hlast⟩
  · exact Or.inl (List.forall_mem_cons.2 ⟨hstop, hnone⟩)
  · refine Or.inr ⟨c₀, List.mem_cons_of_mem _ hc₀, q, hq, fun h0 => absurd hstop.1 h0, ?_⟩
    intro c' hc'
    rw [List.getLast?_cons_cons] at hc'
    rw [List.flatMap_cons, hstop.2.2, List.nil_append]
    exact hlast c' hc'

/-- Behind a call that has got to the headers the next one goes on with them. -/
theorem ReportsLines.begun {code : Int} (hq : c.BeginsAt y q) (hend : c.EndsWith h q c.report.headers) (hpos : 0 < q)
    (hres : c.report.result = .ok (code, n)) (hmore : c.Unfinished) (hn : n ≤ c.buffer.length)
    (hgrow : ∀ d' ∈ d :: calls, c.buffer <+: d'.buffer) (hnext : d.before = n)
    (hrest : ReportsLines y h n (d :: calls)) : ReportsLines y h c.before (c :: d :: calls) := by
  have hqn := hend.le hres
  refine Or.inr ⟨c, List.mem_cons_self .., q, hq, hq.resumed, ?_⟩
  intro c' hc'
  rw [List.getLast?_cons_cons] at hc'
  rcases hrest with hnone | ⟨c₀, -, q', -, hq', hlast⟩
  · -- the next call has a `lastPos`, so it gets to the headers
    have h0 := (hnone d (List.mem_cons_self ..)).1
    omega
  · obtain rfl : q' = n := hq' (by omega)
    rw [List.flatMap_cons]
    exact hend.trans hres hmore hn (hgrow c' (List.mem_of_getLast? hc')) (hlast c' hc')

end

/-- **A run reports its lines**, if none of its calls but the last may complete. -/
theorem Entry.session_lines (entry : Entry) (simd : Simd) {h : Handler σ} (hn : h.NeverRejects)
    {bs : List (List Byte)} (hbs : Growing bs) {lastPos : Nat} (hr : ∀ b ∈ bs.head?, Ready b lastPos) (s : σ)
    (hdone : ∀ c ∈ (entry.session simd h bs lastPos s).dropLast, c.Unfinished) :
    ReportsLines entry.grammar.toStartSyntax h lastPos (entry.session simd h bs lastPos s) := by
  induction bs generalizing lastPos s with
  | nil => exact Or.inl fun c hc => absurd hc List.not_mem_nil
  | cons b bs ih =>
    have hb := hbs.short b (List.mem_cons_self ..)
    have hready := hr b rfl
    obtain ⟨code, n, hres, hle, hnext⟩ := entry.call_ready simd h hb hready s
    have hcons := Entry.session_cons hres bs
    have hlines := entry.call_lines simd hn hb hready.1 s _ rfl
    have hnext' : ∀ c ∈ bs.head?, Ready c n := fun c hc => hnext.grow (hbs.next_le c hc)
    have hbuffers := (entry.session_rule simd h (P := fun _ => True) (fun _ _ _ _ _ => trivial) hbs.tail hnext'
      (entry.observe simd h b lastPos s).state).1
    have ih' := ih hbs.tail hnext' (entry.observe simd h b lastPos s).state
    have hhead := entry.session_head simd h bs n (entry.observe simd h b lastPos s).state
    rw [hcons] at hdone ⊢
    generalize entry.session simd h bs n (entry.observe simd h b lastPos s).state = rest at *
    cases rest with
    | nil => exact ReportsLines.single hlines
    | cons d calls =>
      have hrest := ih' fun c hc => hdone c (List.mem_cons_of_mem _ hc)
      rcases hlines with ⟨q, hq, hend⟩ | hstop
      · refine ReportsLines.begun hq hend hq.pos hres (hdone _ (List.mem_cons_self ..)) hnext.1 ?_ (hhead d rfl) hrest
        intro d' hd'
        refine hbs.head_le _ ?_
        rw [← hbuffers]
        exact List.mem_map_of_mem hd'
      · exact ReportsLines.stopped hstop hrest

/-- **Run invariant of `lastPos`.** Whatever the application answers, no call of a run faults, `lastPos` fits in
every buffer, never goes back, and is 0 or stands behind an LF. If it rejects nothing, each call reports the
lines between where it begins reading headers and the `lastPos` it leaves, and so does a run of calls
of which only the last may complete. -/
theorem lastPos_invariant (entry : Entry) (simd : Simd) (h : Handler σ) {bs : List (List Byte)} (hbs : Growing bs)
    (s : σ) :
    (entry.session simd h bs 0 s).map Call.buffer = bs ∧
    (∀ c ∈ entry.session simd h bs 0 s, c.before ≤ c.buffer.length ∧
      ∃ code n, c.report.result = .ok (code, n) ∧ c.before ≤ n ∧ n ≤ c.buffer.length ∧ LineStart c.buffer n) ∧
    (h.NeverRejects →
      (∀ c ∈ entry.session simd h bs 0 s,
        (∃ q, c.BeginsAt entry.grammar.toStartSyntax q ∧ c.EndsWith h q c.report.headers) ∨
          c.StopsBeforeHeaders entry.grammar.toStartSyntax) ∧
      ((∀ c ∈ (entry.session simd h bs 0 s).dropLast, c.Unfinished) →
        (∀ c ∈ entry.session simd h bs 0 s, c.StopsBeforeHeaders entry.grammar.toStartSyntax) ∨
          ∃ c₀ ∈ entry.session simd h bs 0 s, ∃ q, c₀.BeginsAt entry.grammar.toStartSyntax q ∧
            ∀ c ∈ (entry.session simd h bs 0 s).getLast?,
              c.EndsWith h q ((entry.session simd h bs 0 s).flatMap fun c => c.report.headers))) := by
  have hready : ∀ b ∈ bs.head?, Ready b 0 := fun b _ => ⟨Nat.zero_le _, Or.inl rfl⟩
  obtain ⟨hbuffers, hcalls⟩ := entry.session_rule simd h
    (P := fun c => c.before ≤ c.buffer.length ∧
      ∃ code n, c.report.result = .ok (code, n) ∧ c.before ≤ n ∧ n ≤ c.buffer.length ∧ LineStart c.buffer n)
    (fun b lastPos s hb hr => ⟨hr.1, entry.call_ready simd h hb hr s⟩) hbs hready s
  refine ⟨hbuffers, hcalls, fun hn => ⟨?_, ?_⟩⟩
  · exact (entry.session_rule simd h
      (P := fun c => (∃ q, c.BeginsAt entry.grammar.toStartSyntax q ∧ c.EndsWith h q c.report.headers) ∨
        c.StopsBeforeHeaders entry.grammar.toStartSyntax)
      (fun b lastPos s hb hr => entry.call_lines simd hn hb hr.1 s _ rfl) hbs hready s).2
  · intro hdone
    rcases entry.session_lines simd hn hbs hready s hdone with hnone | ⟨c₀, hc₀, q, hq, -, hend⟩
    · exact Or.inl hnone
    · exact Or.inr ⟨c₀, hc₀, q, hq, hend⟩

/-- A request in two pieces, cut inside a header name. -/
def twoPieces : List (List Byte) :=
  [ascii "GET / HTTP/1.0\r\nfoo: a\r\nba", ascii "GET / HTTP/1.0\r\nfoo: a\r\nbar: b\r\n\r\n"]

theorem twoPieces_growing : Growing twoPieces := ⟨by decide, by decide⟩

theorem lastPos_invariant_twoPieces :
    (∀ c ∈ Entry.request.session .unrolled Handler.recorder twoPieces 0 (),
        c.StopsBeforeHeaders requestGrammar.toStartSyntax) ∨
      ∃ c₀ ∈ Entry.request.session .unrolled Handler.recorder twoPieces 0 (), ∃ q,
        c₀.BeginsAt requestGrammar.toStartSyntax q ∧
        ∀ c ∈ (Entry.request.session .unrolled Handler.recorder twoPieces 0 ()).getLast?,
          c.EndsWith Handler.recorder q
            ((Entry.request.session .unrolled Handler.recorder twoPieces 0 ()).flatMap fun c => c.report.headers) := by
  refine ((lastPos_invariant .request .unrolled Handler.recorder twoPieces_growing ()).2.2
    Handler.recorder_neverRejects).2 ?_
  have hresults : (Entry.request.session .unrolled Handler.recorder twoPieces 0 ()).dropLast.map
      (fun c => c.report.result) =
      [.ok (err .partialData, 24)] := by decide +kernel
  intro c hc code n hres hpos
  have hmem := List.mem_map_of_mem (f := fun c : Call PUnit => c.report.result) hc
  rw [hresults, List.mem_singleton, hres] at hmem
  cases hmem
  exact absurd hpos (by decide)

end Httparsed
