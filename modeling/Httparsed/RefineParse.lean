import Httparsed.RefineHead

/-!
# `parse` refines the reader of heads

`parseHeaders` does on all lines what `parseHeaderLine` does on one, and `parse` puts the empty line, the
start line and the header lines together: `parse_eq`. The equation holds for every buffer, every handler and
either scanner. The integer types only enter through the trimming of values (`notifyHeader`) and the
stored position (`Ints.store`).
-/

namespace Httparsed

open Transducer

variable {σ τ : Type}

/-! ## Offering the callbacks of a run to the application -/

/-- `lastPos = cast(int)(n)` -/
def Ints.store (ints : Ints) (n : Nat) : Nat := ints.uint (ints.wrap n)

/-- The integer types can hold the length of an empty line. -/
def Ints.Small (ints : Ints) : Prop := ∀ n : Nat, n ≤ 2 → ints.wrap n = n ∧ ints.uint n = n

/-- A callback on its way to the application: the value of a header is trimmed first. -/
def handOver (ints : Ints) (h : Handler σ) (e : Event Slice) : Parser σ PUnit :=
  match e with
  | .onHeader name value => notifyHeader ints h name value
  | e => h.notify e

/-- `lastPos` as stored when the reader stops. -/
def storedMark (ints : Ints) (mark : τ → Nat) : Outcome τ Byte (Except (ParserError × Nat) Nat) → Nat
  | .live s => ints.store (mark s)
  | .halted (.error (_, m)) _ => ints.store m
  | .halted (.ok n) _ => ints.store n

/-- The returned code when every callback was accepted. -/
def answerCode (ints : Ints) : Outcome τ Byte (Except (ParserError × Nat) Nat) → Int
  | .live _ => err .partialData
  | .halted (.error (e, _)) _ => err e
  | .halted (.ok n) _ => ints.wrap (ints.store n)

/-- Code and `lastPos` after the callbacks have been offered. A refused callback ends the call at its mark. -/
def verdict (ints : Ints) (mark : τ → Nat) (out : Outcome τ Byte (Except (ParserError × Nat) Nat)) :
    Except (Nat × Stop) Unit → Except Fault (Int × Nat)
  | .ok _ => .ok (answerCode ints out, storedMark ints mark out)
  | .error (m, .ret code) => .ok (code, ints.store m)
  | .error (_, .fault f) => .error f

/-- Offer the callbacks of a run to the application, in order. -/
def deliver (ints : Ints) (h : Handler σ) (mark : τ → Nat)
    (r : List (Nat × Event Slice) × Outcome τ Byte (Except (ParserError × Nat) Nat)) (s : σ) :
    Except Fault (Int × Nat) × σ :=
  ((verdict ints mark r.2 (Veto.offer (handOver ints h) r.1 s).1), (Veto.offer (handOver ints h) r.1 s).2)

section Deliver

variable (ints : Ints) (h : Handler σ) (mark : τ → Nat)

theorem deliver_nil (out : Outcome τ Byte (Except (ParserError × Nat) Nat)) (s : σ) :
    deliver ints h mark ([], out) s = (.ok (answerCode ints out, storedMark ints mark out), s) := rfl

theorem deliver_prepend_ok {o : List (Nat × Event Slice)} {s s' : σ} {u : Unit}
    (ho : Veto.offer (handOver ints h) o s = (.ok u, s'))
    (r : List (Nat × Event Slice) × Outcome τ Byte (Except (ParserError × Nat) Nat)) :
    deliver ints h mark (prepend o r) s = deliver ints h mark r s' := by
  simp only [deliver, prepend_fst, prepend_snd, Veto.offer_append, ho]

theorem deliver_prepend_error {o : List (Nat × Event Slice)} {s s' : σ} {e : Nat × Stop}
    (ho : Veto.offer (handOver ints h) o s = (.error e, s'))
    (r : List (Nat × Event Slice) × Outcome τ Byte (Except (ParserError × Nat) Nat)) :
    deliver ints h mark (prepend o r) s = (verdict ints mark r.2 (.error e), s') := by
  simp only [deliver, prepend_fst, prepend_snd, Veto.offer_append, ho]

end Deliver

/-! ## What the header block can end with -/

theorem notify_ret {h : Handler σ} {e : Event Slice} {s s' : σ} {stop : Stop}
    (hn : h.notify e s = (.error stop, s')) : ∃ code, stop = .ret code ∧ code < 0 := by
  rw [Handler.notify_apply] at hn
  have hr := (Prod.mk.inj hn).1
  split at hr
  · rename_i hc
    exact ⟨_, (Except.error.inj hr).symm, hc.2⟩
  · cases hr

theorem get_error {v : Slice} {i : Nat} {stop : Stop} (h : v.get i = .error stop) : stop = .fault .range := by
  unfold Slice.get at h
  split at h
  · cases h
  · exact (Except.error.inj h).symm

theorem slice_error {v : Slice} {a b : Nat} {stop : Stop} (h : v.slice a b = .error stop) :
    stop = .fault .range := by
  unfold Slice.slice at h
  split at h
  · cases h
  · exact (Except.error.inj h).symm

theorem trimLoop_error {v : Slice} {fuel : Nat} {j : Int} {stop : Stop}
    (h : trimLoop v fuel j = .error stop) : ∃ f, stop = .fault f := by
  induction fuel generalizing j with
  | zero => exact ⟨_, (Except.error.inj h).symm⟩
  | succ fuel ih =>
    unfold trimLoop at h
    split at h
    · cases hg : v.get j.toNat with
      | error e =>
        rw [hg] at h
        exact ⟨_, (Except.error.inj h).symm.trans (get_error hg)⟩
      | ok c =>
        rw [hg, ok_bind] at h
        split at h
        · exact ih h
        · cases h
    · cases h

/-- The trimming of a value does not return from the parser. -/
theorem trimTrailing_error {ints : Ints} {v : Slice} {stop : Stop} (h : trimTrailing ints v = .error stop) :
    ∃ f, stop = .fault f := by
  unfold trimTrailing at h
  split at h
  · cases h
  · cases hg : v.get (v.length - 1) with
    | error e =>
      rw [hg] at h
      exact ⟨_, (Except.error.inj h).symm.trans (get_error hg)⟩
    | ok c =>
      rw [hg, ok_bind] at h
      split at h
      · cases ht : trimLoop v (v.length + 1) (ints.wrap (ints.wrap v.length - 2)) with
        | error e =>
          rw [ht] at h
          obtain ⟨f, rfl⟩ := trimLoop_error ht
          exact ⟨f, (Except.error.inj h).symm⟩
        | ok j =>
          rw [ht, ok_bind] at h
          exact ⟨_, slice_error h⟩
      · cases h

/-- Only a negative answer of the callback makes the header block return. -/
theorem notifyHeader_ret {ints : Ints} {h : Handler σ} {name : Option Slice} {value : Slice} {s s' : σ} {code : Int}
    (hn : notifyHeader ints h name value s = (.error (.ret code), s')) : code < 0 := by
  unfold notifyHeader at hn
  split at hn
  · cases ht : trimTrailing ints value with
    | error stop =>
      obtain ⟨f, rfl⟩ := trimTrailing_error ht
      rw [ht, lift_error_bind] at hn
      cases (Prod.mk.inj hn).1
    | ok v =>
      rw [ht, lift_ok_bind] at hn
      obtain ⟨code', hc, hneg⟩ := notify_ret hn
      rw [Stop.ret.inj hc]
      exact hneg
  · cases (Prod.mk.inj hn).1

section Headers

variable (t : Target) (h : Handler σ)

/-- The position stored for a rest of the buffer. -/
theorem storePos_rest {ints : Ints} {l p : Nat} {rest : List Byte} (hl : l = p + rest.length) :
    storePos ints l ⟨p, rest⟩ = .ok (ints.store p) := by
  have hcast : ((l : Int) - (rest.length : Nat)) = (p : Int) := by omega
  unfold storePos Slice.length
  rw [if_pos (by show rest.length ≤ l; omega), hcast, Ints.store]

theorem finish_neg {ints : Ints} {l p : Nat} {rest : List Byte} (hl : l = p + rest.length) {code : Int}
    (hc : code < 0) : finish ints l (.ok (code, ⟨p, rest⟩)) = .ok (code, ints.store p) := by
  simp only [finish, storePos_rest hl, if_pos hc]

/-- **The loop** of `parseHeaders`, by induction on its turns: one line a turn. -/
theorem parseHeadersLoop_eq (fuel : Nat) (hasHeader : Bool) (buffer : Slice) (s : σ) {l : Nat}
    (hl : l = buffer.ptr + buffer.length) (hf : buffer.length < fuel) :
    (finish t.ints l (parseHeadersLoop t h fuel hasHeader buffer s).1,
        (parseHeadersLoop t h fuel hasHeader buffer s).2) =
      deliver t.ints h HeaderState.mark
        (run headerStep buffer.ptr ⟨buffer.ptr, .lineStart hasHeader⟩ buffer.bytes) s := by
  induction fuel generalizing hasHeader buffer s with
  | zero => omega
  | succ fuel ih =>
    rw [parseHeadersLoop, parseHeaderLine_eq, run_headerStep]
    cases hr : run lineStep buffer.ptr (.lineStart hasHeader) buffer.bytes with
    | mk o out =>
      cases out with
      | live phase =>
        simp only [realizeLine, lift, deliver_nil, finish_neg hl (err_neg _)]
        rfl
      | halted v rest =>
        obtain ⟨a, ha, hall⟩ := halted_split hr
        have hne : a ≠ [] := by
          rintro rfl
          simpa using hall []
        have hpos := List.length_pos_iff.2 hne
        have hlen : buffer.length = a.length + rest.length := by
          rw [Slice.length, ha, List.length_append]
        rcases v with e | v
        · simp only [realizeLine, lift, deliver_nil, finish_neg hl (err_neg _)]
          rfl
        · have hrest : l = (buffer.ptr + (buffer.length - rest.length)) + rest.length := by omega
          cases v with
          | closing =>
            simp only [realizeLine, realizeEnd, deliver_nil, pure_apply, finish, storePos_rest hrest]
            rfl
          | header name value =>
            simp only [realizeLine, realizeEnd, bind_apply, pure_apply]
            cases hn : notifyHeader t.ints h name value s with
            | mk r s' =>
              rcases r with stop | u
              · have hoffer : Veto.offer (handOver t.ints h) [(buffer.ptr, Event.onHeader name value)] s =
                    (.error (buffer.ptr, stop), s') := Veto.offer_cons_error (o := Event.onHeader name value) hn _ _
                rw [deliver_prepend_error t.ints h _ hoffer]
                rcases stop with code | f
                · rw [finish_neg hl (notifyHeader_ret hn)]
                  rfl
                · rfl
              · have hoffer : Veto.offer (handOver t.ints h) [(buffer.ptr, Event.onHeader name value)] s =
                    (.ok ⟨⟩, s') := Veto.offer_cons_ok (o := Event.onHeader name value) hn _ _
                rw [deliver_prepend_ok t.ints h _ hoffer]
                exact ih true _ s' hrest (by simp only [Slice.length] at *; omega)

theorem parseRest_eq (buffer : Slice) (s : σ) {l : Nat} (hl : l = buffer.ptr + buffer.length) :
    parseRest t h l buffer s =
      deliver t.ints h HeaderState.mark (run headerStep buffer.ptr (headerStart buffer.ptr) buffer.bytes) s :=
  parseHeadersLoop_eq t h (buffer.length + 1) false buffer s hl (Nat.lt_succ_self _)

end Headers

/-! ## The start line and what follows it -/

section Start

variable (t : Target) (h : Handler σ)

/-- Offering the callbacks of a start line is calling them one after the other. -/
theorem offer_startLine (m : Nat) (o : List (Event Slice)) (ho : ∀ e ∈ o, e.isHeader = false) (s : σ) :
    Veto.offer (handOver t.ints h) (o.map (Prod.mk m)) s =
      match notifyAll h o s with
      | (.ok _, s') => (.ok ⟨⟩, s')
      | (.error stop, s') => (.error (m, stop), s') := by
  induction o generalizing s with
  | nil => rfl
  | cons e o ih =>
    have he : handOver t.ints h e = h.notify e := by
      cases e with
      | onHeader name value => exact absurd (ho _ (List.mem_cons_self ..)) (by simp [Event.isHeader, Event.member])
      | _ => rfl
    have ih' := ih fun e' he' => ho e' (List.mem_cons_of_mem _ he')
    simp only [List.map_cons, notifyAll, bind_apply]
    cases hn : h.notify e s with
    | mk r s' =>
      have hn' : handOver t.ints h e s = (r, s') := by rw [he, hn]
      rcases r with stop | u
      · rw [Veto.offer_cons_error hn']
      · rw [Veto.offer_cons_ok hn', ih']

/-- A reader of header lines alone, and the same within the reader of heads. -/
theorem deliver_inSnd {l : StartLine}
    (r : List (Nat × Event Slice) × Outcome HeaderState Byte (Except (ParserError × Nat) Nat)) (s : σ) :
    deliver t.ints h (HeadState.mark (l := l)) (inSnd r) s = deliver t.ints h HeaderState.mark r s := by
  obtain ⟨o, out⟩ := r
  rcases out with s' | ⟨⟨e, m⟩ | n, rest⟩ <;> rfl

/-- **From the start line on**, `m` bytes of empty line having been skipped. -/
theorem startLine_eq (ht : t.ints.Small) (l : StartLine) {pred : Slice → Parser σ Slice}
    (hpred : ∀ buffer, pred buffer = realize h buffer (run l.step buffer.ptr (l.start buffer.ptr) buffer.bytes))
    {m len : Nat} (hm : m ≤ 2) {b : List Byte} (hlen : len = m + b.length) (s : σ) :
    (match pred ⟨m, b⟩ s with
      | (.error stop, s') => (earlyReturn m stop, s')
      | (.ok rest, s') =>
        match storePos t.ints len rest with
        | .error f => (.error f, s')
        | .ok _ => parseRest t h len rest s') =
      deliver t.ints h HeadState.mark (run (headStep l) m (.inl (.line m (l.start m))) b) s := by
  have hstore : t.ints.store m = m := by
    rw [Ints.store, (ht m hm).1, (ht m hm).2]
  rw [hpred, run_headStep_line]
  cases hr : run l.step m (l.start m) b with
  | mk o out =>
    have hno : ∀ e ∈ o, e.isHeader = false := by
      have hall := run_outputs (Q := fun e : Event Slice => e.isHeader = false) l.notHeader m (l.start m) b
      rwa [hr] at hall
    have hoffer := offer_startLine t h m o hno s
    simp only [realize, bind_apply]
    cases hn : notifyAll h o s with
    | mk r s' =>
      rw [hn] at hoffer
      rcases r with stop | u
      · rw [deliver_prepend_error t.ints h _ hoffer]
        rcases stop with code | f
        · simp only [earlyReturn, verdict, hstore]
        · rfl
      · rw [deliver_prepend_ok t.ints h _ hoffer]
        rcases out with s₁ | ⟨e | v, rest⟩
        · simp only [lift, lineEnd, earlyReturn, deliver_nil, answerCode, storedMark, HeadState.mark, Lead.mark, hstore]
        · simp only [lift, lineEnd, earlyReturn, deliver_nil, answerCode, storedMark, hstore]
        · obtain ⟨a, rfl, -⟩ := halted_split hr
          have hrest : len = (m + ((a ++ rest).length - rest.length)) + rest.length := by
            simp only [List.length_append] at hlen ⊢
            omega
          simp only [lift, lineEnd, Slice.length, storePos_rest hrest, deliver_inSnd]
          exact parseRest_eq t h _ s' hrest

/-- **The empty line in front** is skipped, or it is not whole and ends the call. -/
theorem skipEmptyLine_eq {ints : Ints} (ht : ints.Small) (l : StartLine) (b : List Byte) :
    (∃ (e : ParserError) (out : HeadOutcome l), skipEmptyLine ints ⟨0, b⟩ 0 = .error (.ret (err e)) ∧
        run (headStep l) 0 (.inl .begin) b = ([], out) ∧ answerCode ints out = err e ∧
        storedMark ints HeadState.mark out = 0) ∨
      ∃ m, m ≤ 2 ∧ m ≤ b.length ∧ skipEmptyLine ints ⟨0, b⟩ 0 = .ok (⟨m, b.drop m⟩, m) ∧
        run (headStep l) 0 (.inl .begin) b = run (headStep l) m (.inl (.line m (l.start m))) (b.drop m) := by
  have hstore : ints.store 0 = 0 := by
    rw [Ints.store, (ht 0 (Nat.zero_le 2)).1, (ht 0 (Nat.zero_le 2)).2]
  unfold skipEmptyLine
  cases b with
  | nil => exact Or.inl ⟨.partialData, .live (.inl .begin), rfl, rfl, rfl, hstore⟩
  | cons c cs =>
    have hget : Slice.get ⟨0, c :: cs⟩ 0 = .ok c := rfl
    rw [if_neg (by simp [Slice.length]), hget, ok_bind]
    by_cases hcr : c = CR
    · subst hcr
      have hstep : headStep l 0 (.inl .begin) CR = ([], .more (.inl .beginCR)) := rfl
      rw [if_pos rfl, run_more hstep, prepend_nil]
      cases cs with
      | nil => exact Or.inl ⟨.partialData, .live (.inl .beginCR), rfl, rfl, rfl, hstore⟩
      | cons d ds =>
        have hget1 : Slice.get ⟨0, CR :: d :: ds⟩ 1 = .ok d := rfl
        rw [if_neg (by simp [Slice.length]), hget1, ok_bind]
        by_cases hlf : d = LF
        · subst hlf
          have hnext : headStep l (0 + 1) (.inl .beginCR) LF = ([], .more (.inl (.line 2 (l.start 2)))) := rfl
          have hu : ints.uint (((0 : Nat) : Int) + 2) = 2 := (ht 2 (Nat.le_refl 2)).2
          have hle : 2 ≤ Slice.length ⟨0, CR :: LF :: ds⟩ := by simp [Slice.length]
          rw [if_neg (fun hne => hne rfl), run_more hnext, prepend_nil]
          refine Or.inr ⟨2, Nat.le_refl 2, hle, ?_, rfl⟩
          simp only [hu]
          rw [Slice.sliceFrom_ok hle]
          rfl
        · have hnext : headStep l (0 + 1) (.inl .beginCR) d = ([], .halt (.error (.newLine, 0))) := by
            simp only [headStep, seq, leadStep, if_neg hlf]
          rw [if_pos hlf, run_halt hnext]
          exact Or.inl ⟨.newLine, _, rfl, rfl, rfl, hstore⟩
    · rw [if_neg hcr]
      by_cases hlf : c = LF
      · subst hlf
        have hstep : headStep l 0 (.inl .begin) LF = ([], .more (.inl (.line 1 (l.start 1)))) := rfl
        have hu : ints.uint (((0 : Nat) : Int) + 1) = 1 := (ht 1 (by omega)).2
        have hle : 1 ≤ Slice.length ⟨0, LF :: cs⟩ := by simp [Slice.length]
        rw [if_pos rfl, run_more hstep, prepend_nil]
        refine Or.inr ⟨1, by omega, hle, ?_, rfl⟩
        simp only [hu]
        rw [Slice.sliceFrom_ok hle]
        rfl
      · -- no empty line: the start line begins with this byte
        have hsame : headStep l 0 (.inl .begin) c = headStep l 0 (.inl (.line 0 (l.start 0))) c := by
          simp only [headStep, seq, leadStep, if_neg hcr, if_neg hlf]
        rw [if_neg hlf, run_cons_congr hsame]
        exact Or.inr ⟨0, Nat.zero_le 2, Nat.zero_le _, rfl, rfl⟩

/-- **The common part of both entry points** is the reader of heads with its callbacks offered. -/
theorem parse_eq (ht : t.ints.Small) (l : StartLine) {pred : Slice → Parser σ Slice}
    (hpred : ∀ buffer, pred buffer = realize h buffer (run l.step buffer.ptr (l.start buffer.ptr) buffer.bytes))
    (b : List Byte) {lastPos : Nat} (hpos : lastPos ≤ b.length) (s : σ) :
    parse t h pred ⟨0, b⟩ lastPos s = deliver t.ints h HeadState.mark (read l b lastPos) s := by
  unfold parse read
  rw [if_neg (by simpa [Slice.length] using hpos)]
  by_cases h0 : lastPos = 0
  · subst h0
    rw [if_pos rfl, if_pos rfl]
    rcases skipEmptyLine_eq ht l b with ⟨e, out, hskip, hrun, hcode, hmark⟩ | ⟨m, hm, hle, hskip, hrun⟩
    · rw [hskip, hrun, deliver_nil, hcode, hmark]
      rfl
    · rw [hskip, hrun]
      exact startLine_eq t h ht l hpred hm (by simp [Slice.length]; omega) s
  · rw [if_neg h0, if_neg h0, Slice.sliceFrom_ok (by simpa [Slice.length] using hpos)]
    unfold headStep
    rw [run_seq_inr, deliver_inSnd]
    have hrest := parseRest_eq t h ⟨lastPos, b.drop lastPos⟩ s (l := b.length)
      (by simp only [Slice.length, List.length_drop]; omega)
    simpa [Slice.length] using hrest

end Start

/-! ## The two entry points -/

/-- `parseRequest` or `parseResponse`. -/
def Entry.parse (entry : Entry) (t : Target) (h : Handler σ) (buffer : List Byte) (lastPos : Nat) (s : σ) :
    Except Fault (Int × Nat) × σ :=
  match entry with
  | .request => parseRequest t h buffer lastPos s
  | .response => parseResponse t h buffer lastPos s

/-- **An entry point is the reader of heads with its callbacks offered to the application.** -/
theorem Entry.parse_eq (entry : Entry) (t : Target) (ht : t.ints.Small) (h : Handler σ) (b : List Byte)
    {lastPos : Nat} (hpos : lastPos ≤ b.length) (s : σ) :
    entry.parse t h b lastPos s = deliver t.ints h HeadState.mark (read entry.line b lastPos) s := by
  cases entry with
  | request => exact Httparsed.parse_eq t h ht requestLine (parseRequestLine_eq t.simd h) b hpos s
  | response => exact Httparsed.parse_eq t h ht statusLine (parseStatusLine_eq t.simd h) b hpos s

end Httparsed
