import Httparsed.PicoRun
import Httparsed.Lib.Framing
import Mathlib.Data.Set.List

/-!
# The benchmark (bench/bench.d)

Both parsers on requests one behind the other: a loop calls on all that is left and steps over what the call has
read. It takes the heads off one by one (`testHttparsed_outcome`), and picohttpparser takes the same where the
grammars agree (`testPicoHttpParser_outcome`). On an application that never objects it is `Entry.pipeline`, which
keeps the lengths where the loop counts (`requestsLoop_pipeline`).

| here | there |
| --- | --- |
| `requestsLoop`, `countRequests`  | the body that `testHttparsed` (bench.d:54) and `testPicoHttpParser` (:70) share |
| `testHttparsedMsg`, `testHttparsedNoopMsg` | `testHttparsed!Msg`, `testHttparsed!NoopMsg` |
| `Failure.exception`          | the message of an `enforce` |

The bounds checks are the ones of the language. The benchmark is compiled without them (bench/Makefile:2), so where
the model has the fault `range`, it writes behind the ten slots of its `Msg`.
-/

namespace Httparsed

open Grammar Framing

/-- How a run of the benchmark fails. -/
inductive Failure where
  | exception (msg : String)
  | fault (f : Fault)
  deriving DecidableEq, Repr

/-- The number of requests in `requests.txt`. -/
def REQNUM : UInt32 := 275

/-- `enforce(res > 0, …)` -/
def unexpectedResponse (res : Int) : Failure := .exception ("Unexpected response: " ++ toString res)

/-- `enforce(reqNum == REQNUM, …)` -/
def wrongNumber (reqNum : UInt32) : Failure :=
  .exception ("Expected " ++ toString REQNUM ++ " requests parsed, but got: " ++ toString reqNum)

section

variable {σ : Type} (parse : List Byte → σ → Except Fault (Int × σ))

/-- `while (data.length)`, with the number of requests so far -/
def requestsLoop : Nat → List Byte → UInt32 → σ → Except Failure UInt32
  | 0, _, _, _ => .error (.fault .fuel)
  | fuel + 1, data, reqNum, s =>
    if data.isEmpty then .ok reqNum
    else
      match parse data s with
      | .error f => .error (.fault f)
      | .ok (res, s) =>
        if ¬ 0 < res then .error (unexpectedResponse res)
        else if data.length < res then .error (.fault .range)
        else requestsLoop fuel (data.drop res.toNat) (reqNum + 1) s

def countRequests (requests : List Byte) (s : σ) : Except Failure Unit := do
  let reqNum ← requestsLoop parse (requests.length + 1) requests 0 s
  if reqNum = REQNUM then .ok () else .error (wrongNumber reqNum)

end

/-- `p.parseRequest(data)` of a `MsgParser!Msg`, the headers of the last request being dropped. -/
def parseBenchMsg (simd : Simd) (data : List Byte) (m : BenchMsg) : Except Fault (Int × BenchMsg) :=
  (Entry.request.parseMsg simd data 0 m.clear).map fun x => (x.1.1, x.2)

/-- A call on an application. -/
def Entry.parseOn {σ : Type} (entry : Entry) (simd : Simd) (h : Handler σ) (data : List Byte) (s : σ) :
    Except Fault (Int × σ) :=
  (entry.observe simd h data 0 s).code.map fun res => (res, (entry.observe simd h data 0 s).state)

/-- `p.parseRequest(data)` of a `MsgParser!NoopMsg` -/
def parseNoopMsg (simd : Simd) : List Byte → Unit → Except Fault (Int × Unit) :=
  Entry.request.parseOn simd Handler.silent

/-- `phr_parse_request` with room for 32 headers -/
def parsePico (simd : Simd) (data : List Byte) (_ : Unit) : Except Fault (Int × Unit) :=
  (Pico.phrParseRequest simd 32 data 0).map fun x => (x.1, ())

/-- `testHttparsed!Msg` -/
def testHttparsedMsg (simd : Simd) (requests : List Byte) : Except Failure Unit :=
  countRequests (parseBenchMsg simd) requests (.init benchKind)

/-- `testHttparsed!NoopMsg` -/
def testHttparsedNoopMsg (simd : Simd) (requests : List Byte) : Except Failure Unit :=
  countRequests (parseNoopMsg simd) requests ()

/-- `testPicoHttpParser` -/
def testPicoHttpParser (simd : Simd) (requests : List Byte) : Except Failure Unit :=
  countRequests (parsePico simd) requests ()

/-! ## The loop is a drain -/

section

variable {σ : Type} {parse : List Byte → σ → Except Fault (Int × σ)}

/-- One turn of the loop. -/
def turn (parse : List Byte → σ → Except Fault (Int × σ)) (data : List Byte) (s : σ) : Except Failure (Nat × σ) :=
  match parse data s with
  | .error f => .error (.fault f)
  | .ok (res, s) =>
    if ¬ 0 < res then .error (unexpectedResponse res)
    else if data.length < res then .error (.fault .range)
    else .ok (res.toNat, s)

theorem requestsLoop_turn {fuel : Nat} {data : List Byte} (hdata : data ≠ []) (reqNum : UInt32) (s : σ) :
    requestsLoop parse (fuel + 1) data reqNum s =
      match turn parse data s with
      | .error e => .error e
      | .ok (n, s') => requestsLoop parse fuel (data.drop n) (reqNum + 1) s' := by
  rw [requestsLoop, if_neg (by rwa [List.isEmpty_iff]), turn]
  cases parse data s with
  | error f => rfl
  | ok x =>
    simp only
    split_ifs
    · rfl
    · rfl
    · rfl

/-- **The loop counts what a drain takes.** -/
theorem requestsLoop_eq (fuel : Nat) (data : List Byte) (reqNum : UInt32) (s : σ) :
    requestsLoop parse fuel data reqNum s =
      (drain (turn parse) (.fault .fuel) fuel data s).map fun r => reqNum + UInt32.ofNat r.1.length := by
  induction fuel generalizing data reqNum s with
  | zero => rfl
  | succ fuel ih =>
    by_cases hdata : data = []
    · subst hdata
      rw [drain_nil (Nat.succ_pos _)]
      show Except.ok reqNum = .ok (reqNum + 0)
      rw [UInt32.add_zero]
    · rw [requestsLoop_turn hdata]
      cases hturn : turn parse data s with
      | error e => rw [drain_error hdata hturn]; rfl
      | ok x =>
        obtain ⟨n, s'⟩ := x
        rw [drain_ok hdata hturn]
        simp only [ih]
        cases drain (turn parse) (.fault .fuel) fuel (data.drop n) s' with
        | error e => rfl
        | ok r =>
          simp only [Except.map, List.length_cons, UInt32.ofNat_add, Except.ok.injEq]
          rw [UInt32.add_comm (UInt32.ofNat r.1.length), ← UInt32.add_assoc]
          rfl

/-- A run succeeds where the loop ends with the number that is asked for. -/
theorem countRequests_ok_iff {requests : List Byte} {s : σ} :
    countRequests parse requests s = .ok () ↔
      (requestsLoop parse (requests.length + 1) requests 0 s).toOption = some REQNUM := by
  rw [countRequests]
  cases requestsLoop parse (requests.length + 1) requests 0 s with
  | error e =>
    constructor
    · intro h
      cases h
    · intro h
      cases h
  | ok reqNum =>
    show (if reqNum = REQNUM then Except.ok () else .error (wrongNumber reqNum)) = .ok () ↔ some reqNum = some REQNUM
    rw [Option.some.injEq]
    split_ifs with hnum
    · exact iff_of_true rfl hnum
    · exact iff_of_false (fun h => by cases h) hnum

/-- What becomes of a run that has counted `n` requests. -/
def counted (n : Nat) : Except Failure Unit :=
  if n = REQNUM.toNat then .ok () else .error (wrongNumber (UInt32.ofNat n))

theorem counted_eq {n : Nat} (hn : n < 2 ^ 32) :
    counted n = if UInt32.ofNat n = REQNUM then .ok () else .error (wrongNumber (UInt32.ofNat n)) := by
  refine if_congr ⟨?_, ?_⟩ rfl rfl
  · rintro rfl
    exact UInt32.ofNat_toNat
  · intro h
    rw [← h, UInt32.toNat_ofNat', Nat.mod_eq_of_lt hn]

/-- A run takes the frames off the front, and fails where none is left. -/
theorem countRequests_cases {c : Cut Byte} (h : Takes c (turn parse) (2 ^ 31 - 1)) {requests : List Byte}
    (hb : requests.length < 2 ^ 31) (s : σ) :
    ∃ (ws : List (List Byte)) (rest : List Byte), ws.flatten ++ rest = requests ∧ (∀ x ∈ ws, c.Frame x) ∧
      ((rest = [] ∧ countRequests parse requests s = counted ws.length) ∨
        (rest ≠ [] ∧ c.next rest = none ∧
          ∃ s' e, turn parse rest s' = .error e ∧ countRequests parse requests s = .error e)) := by
  obtain ⟨ws, rest, hsplit, hframes, hend⟩ :=
    @drain_cases _ _ _ c (turn parse) (.fault .fuel) _ _ _ h (Nat.le_sub_one_of_lt hb) (Nat.lt_succ_self _) s
  refine ⟨ws, rest, hsplit, hframes, ?_⟩
  rcases hend with ⟨hrest, s', hdrain⟩ | ⟨hrest, hnone, s', e, he, hdrain⟩
  · refine Or.inl ⟨hrest, ?_⟩
    have hlen := Cut.length_le_flatten hframes
    rw [hrest, List.append_nil] at hsplit
    rw [countRequests, requestsLoop_eq, hdrain, counted_eq (by rw [← hsplit] at hb; omega),
      ← UInt32.zero_add (.ofNat _)]
    rfl
  · refine Or.inr ⟨hrest, hnone, s', e, he, ?_⟩
    rw [countRequests, requestsLoop_eq, hdrain]
    rfl

theorem countRequests_frames {c : Cut Byte} (h : Takes c (turn parse) (2 ^ 31 - 1)) {ws : List (List Byte)}
    (hws : ∀ x ∈ ws, c.Frame x) (hb : ws.flatten.length < 2 ^ 31) (s : σ) :
    countRequests parse ws.flatten s = counted ws.length := by
  obtain ⟨ws', rest, hsplit, hframes, hend⟩ := countRequests_cases h hb s
  have hnone : c.next rest = none := by
    rcases hend with ⟨rfl, -⟩ | ⟨-, hnone, -⟩
    · exact Cut.next_nil
    · exact hnone
  obtain ⟨rfl, rfl⟩ := Cut.split_unique hframes hws hnone Cut.next_nil (hsplit.trans (List.append_nil _).symm)
  rcases hend with ⟨-, hrun⟩ | ⟨hne, -⟩
  · exact hrun
  · exact absurd rfl hne

end

/-! ## Frames -/

/-- The heads of requests, as frames of a stream. -/
noncomputable def headCut : Cut Byte :=
  Cut.ofFrames (fun x => ∃ hd : Head requestSyntax, hd.bytes = x)
    (by
      rintro x ⟨hd, rfl⟩
      exact List.ne_nil_of_length_pos (head_pos hd))
    (by
      rintro b x x' ⟨hd, rfl⟩ ⟨hd', rfl⟩ h h'
      have hlen := heads_same_length requestGrammar h h'
      exact (List.prefix_of_prefix_length_le h h' hlen.le).eq_of_length hlen)

/-- The requests of picohttpparser with up to `max_headers` lines. -/
noncomputable def picoCut (max_headers : Nat) : Cut Byte :=
  Cut.ofFrames (fun x => ∃ q : Pico.Request, q.headers.lines.length ≤ max_headers ∧ q.bytes = x)
    (by
      rintro x ⟨q, -, rfl⟩
      exact List.ne_nil_of_length_pos q.length_pos)
    (by
      rintro b x x' ⟨q, hroom, rfl⟩ ⟨q', hroom', rfl⟩ ⟨tl, rfl⟩ ⟨tl', heq⟩
      have h := (Pico.parseRequest_ok_iff .unrolled).2 ⟨q, tl, hroom, rfl, rfl, rfl⟩
      have h' := (Pico.parseRequest_ok_iff .unrolled).2 ⟨q', tl', hroom', heq.symm, rfl, rfl⟩
      rw [h] at h'
      have hlen : q.bytes.length = q'.bytes.length :=
        congrArg Slice.ptr (Prod.mk.inj (Except.ok.inj h')).2
      exact (List.append_inj heq.symm hlen).1)

theorem headCut_next {b : List Byte} {n : Nat} :
    headCut.next b = some n ↔ ∃ hd : Head requestSyntax, hd.bytes <+: b ∧ hd.bytes.length = n := by
  refine Cut.ofFrames_next.trans ⟨?_, ?_⟩
  · rintro ⟨x, ⟨hd, rfl⟩, h⟩
    exact ⟨hd, h⟩
  · rintro ⟨hd, h⟩
    exact ⟨hd.bytes, ⟨hd, rfl⟩, h⟩

theorem headCut_none {b : List Byte} (h : ∀ hd : Head requestSyntax, ¬ hd.bytes <+: b) : headCut.next b = none := by
  cases hnext : headCut.next b with
  | none => rfl
  | some n =>
    obtain ⟨hd, hfront, -⟩ := headCut_next.1 hnext
    exact absurd hfront (h hd)

theorem headCut_frames {hs : List (Head requestSyntax)} : ∀ x ∈ hs.map Head.bytes, headCut.Frame x := by
  intro x hx
  obtain ⟨hd, -, rfl⟩ := List.mem_map.1 hx
  exact Cut.ofFrames_frame.2 ⟨hd, rfl⟩

theorem picoCut_next {max_headers n : Nat} {b : List Byte} :
    (picoCut max_headers).next b = some n ↔
      ∃ q : Pico.Request, q.bytes <+: b ∧ q.headers.lines.length ≤ max_headers ∧ q.bytes.length = n := by
  refine Cut.ofFrames_next.trans ⟨?_, ?_⟩
  · rintro ⟨x, ⟨q, hroom, rfl⟩, hfront, hlen⟩
    exact ⟨q, hfront, hroom, hlen⟩
  · rintro ⟨q, hfront, hroom, hlen⟩
    exact ⟨q.bytes, ⟨q, hroom, rfl⟩, hfront, hlen⟩

theorem picoCut_frames {max_headers : Nat} {qs : List Pico.Request}
    (h : ∀ q ∈ qs, q.headers.lines.length ≤ max_headers) :
    ∀ x ∈ qs.map Pico.Request.bytes, (picoCut max_headers).Frame x := by
  intro x hx
  obtain ⟨q, hq, rfl⟩ := List.mem_map.1 hx
  exact Cut.ofFrames_frame.2 ⟨q, h q hq, rfl⟩

section

variable {σ : Type} {parse : List Byte → σ → Except Fault (Int × σ)} {data : List Byte} {s s' : σ}

theorem turn_ok_iff {n : Nat} :
    turn parse data s = .ok (n, s') ↔ 0 < n ∧ n ≤ data.length ∧ parse data s = .ok (n, s') := by
  unfold turn
  constructor
  · intro h
    cases hparse : parse data s with
    | error f =>
      rw [hparse] at h
      cases h
    | ok x =>
      obtain ⟨res, s₁⟩ := x
      simp only [hparse] at h
      split_ifs at h with hpos hin
      obtain ⟨rfl, rfl⟩ := Prod.mk.inj (Except.ok.inj h)
      have hres : (res.toNat : Int) = res := Int.toNat_of_nonneg (by omega)
      exact ⟨by omega, by omega, by rw [hres]⟩
  · rintro ⟨hpos, hin, hparse⟩
    have hpos' : (0 : Int) < n := by omega
    have hin' : ¬ (data.length : Int) < n := by omega
    simp only [hparse, not_not.2 hpos', if_false, hin', Int.toNat_natCast]

theorem turn_refused {res : Int} (h : parse data s = .ok (res, s')) (hres : res ≤ 0) :
    turn parse data s = .error (unexpectedResponse res) := by
  simp only [turn, h, if_pos (not_lt.2 hres)]

end

/-! ## The loop and the pipeline -/

section

variable {σ : Type} (entry : Entry) (simd : Simd) {h : Handler σ} {data : List Byte}

theorem Entry.parseOn_eq (hn : h.NeverRejects) (hb : data.length < 2 ^ 31) (s : σ) :
    entry.parseOn simd h data s =
      .ok ((answer entry.line data 0).code, (entry.observe simd h data 0 s).state) := by
  rw [Entry.parseOn, entry.observe_code simd hn hb (Nat.zero_le _) s]
  rfl

/-- The pipeline is a drain too: it cuts off what the loop steps over. -/
theorem pipeline_eq_drain (hn : h.NeverRejects) (hb : data.length < 2 ^ 31) (fuel : Nat) (s : σ) :
    entry.pipeline simd h fuel data s =
      (drain (turn (entry.parseOn simd h)) (.fault .fuel) fuel data s).toOption.map
        fun r => r.1.map List.length := by
  induction fuel generalizing data s with
  | zero => rfl
  | succ fuel ih =>
    by_cases hdata : data = []
    · subst hdata
      rw [drain_nil (Nat.succ_pos _)]
      rfl
    · have hparse := entry.parseOn_eq simd hn hb s
      rw [Entry.pipeline, if_neg hdata, entry.observe_code simd hn hb (Nat.zero_le _) s]
      by_cases hpos : 0 < (answer entry.line data 0).code
      · obtain ⟨n, hcode⟩ := Int.eq_ofNat_of_zero_le hpos.le
        rw [hcode] at hparse hpos
        have hin := (answer_take entry.grammar (Int.natCast_pos.1 hpos) hcode []).1
        have hdrop : (data.drop n).length < 2 ^ 31 := by
          rw [List.length_drop]
          omega
        rw [hcode, drain_ok hdata (turn_ok_iff.2 ⟨Int.natCast_pos.1 hpos, hin, hparse⟩)]
        simp only [if_pos hpos, Int.toNat_natCast, ih hdrop]
        cases drain (turn (entry.parseOn simd h)) (.fault .fuel) fuel (data.drop n)
            (entry.observe simd h data 0 s).state with
        | error e => rfl
        | ok r =>
          have htake : (data.take n).length = n := by rw [List.length_take, Nat.min_eq_left hin]
          simp only [Except.map, Except.toOption, Option.map_some, List.map_cons, htake]
      · rw [drain_error hdata (turn_refused hparse (not_lt.1 hpos))]
        simp only [if_neg hpos]
        rfl

/-- **The loop counts what the pipeline cuts off**, and ends without a result where the pipeline does. -/
theorem requestsLoop_pipeline (hn : h.NeverRejects) (hb : data.length < 2 ^ 31) (fuel : Nat) (reqNum : UInt32) (s : σ) :
    (requestsLoop (entry.parseOn simd h) fuel data reqNum s).toOption =
      (entry.pipeline simd h fuel data s).map fun ns => reqNum + UInt32.ofNat ns.length := by
  rw [requestsLoop_eq, pipeline_eq_drain entry simd hn hb]
  cases drain (turn (entry.parseOn simd h)) (.fault .fuel) fuel data s with
  | error e => rfl
  | ok r => simp only [Except.map, Except.toOption, Option.map_some, List.length_map]

end

/-! ## The calls -/

section

variable (simd : Simd) {data : List Byte}

/-- A call reads a head, or fails. -/
theorem request_code (data : List Byte) :
    (∃ hd : Head requestSyntax, hd.bytes <+: data ∧ (answer Entry.request.line data 0).code = hd.bytes.length) ∨
      (answer Entry.request.line data 0).code < 0 := by
  obtain ⟨o, out, hread⟩ : ∃ o out, read Entry.request.line data 0 = (o, out) := ⟨_, _, rfl⟩
  simp only [answer, hread]
  rcases out with s | ⟨⟨e, n⟩ | n, rest⟩
  · exact Or.inr (err_neg .partialData)
  · exact Or.inr (err_neg e)
  · obtain ⟨hd, rfl, rfl, -⟩ := read_sound (g := requestGrammar) hread
    exact Or.inl ⟨hd, List.prefix_append _ _, rfl⟩

theorem parseNoopMsg_eq (hb : data.length < 2 ^ 31) (s : Unit) :
    parseNoopMsg simd data s = .ok ((answer Entry.request.line data 0).code, ()) :=
  Entry.request.parseOn_eq simd Handler.silent_neverRejects hb s

theorem refused_bench (e : Event Slice) : e.refused benchKind = false := by
  cases e with
  | onVersion ver => rfl
  | _ => rfl

/-- The eleventh header line has no slot. -/
theorem parseBenchMsg_cases (hb : data.length < 2 ^ 31) (m : BenchMsg) :
    if 10 < (Message.headersOf (Entry.request.told simd data 0)).length then
      parseBenchMsg simd data m = .error .range
    else ∃ m', parseBenchMsg simd data m = .ok ((answer Entry.request.line data 0).code, m') := by
  have h := Entry.request.parseMsg_accepted simd m.clear hb (Nat.zero_le _) fun e _ => refused_bench e
  have hslots : m.clear.m_headersLength + (Message.headersOf (answer Entry.request.line data 0).events).length ≤
      benchKind.slots ↔ ¬ 10 < (Message.headersOf (answer Entry.request.line data 0).events).length := by
    show 0 + _ ≤ 10 ↔ _
    omega
  rw [Entry.request.told_eq simd hb (Nat.zero_le _)]
  split_ifs with hmany
  · rw [if_neg fun hle => hslots.1 hle hmany] at h
    rw [parseBenchMsg, h]
    rfl
  · rw [if_pos (hslots.2 hmany)] at h
    obtain ⟨m', hm', -⟩ := h
    refine ⟨m', ?_⟩
    rw [parseBenchMsg, hm']
    rfl

theorem parseNoopMsg_takes : Takes headCut (turn (parseNoopMsg simd)) (2 ^ 31 - 1) := by
  intro b s n hb
  have hb' : b.length < 2 ^ 31 := by omega
  rw [headCut_next]
  constructor
  · rintro ⟨s', h⟩
    obtain ⟨hpos, -, hcall⟩ := turn_ok_iff.1 h
    rw [parseNoopMsg_eq simd hb'] at hcall
    have hcode := (Prod.mk.inj (Except.ok.inj hcall)).1
    obtain ⟨hd, hfront, hlen, -⟩ := (answer_iff_head requestGrammar b hpos _).1 ⟨hcode, rfl⟩
    exact ⟨hd, hfront, hlen⟩
  · rintro ⟨hd, ⟨tl, rfl⟩, rfl⟩
    refine ⟨(), turn_ok_iff.2 ⟨head_pos hd, (List.prefix_append _ _).length_le, ?_⟩⟩
    rw [parseNoopMsg_eq simd hb']
    exact congrArg (fun code => Except.ok (code, ())) (answer_head requestGrammar hd tl).1

/-- What a call of picohttpparser comes to. -/
theorem parsePico_cases (hb : data.length < 2 ^ 31) (s : Unit) :
    (∃ q : Pico.Request, q.bytes <+: data ∧ q.headers.lines.length ≤ 32 ∧
        parsePico simd data s = .ok (q.bytes.length, ())) ∨
      ∃ res < 0, parsePico simd data s = .ok (res, ()) := by
  rcases (Pico.requestParser simd 32).call_answers hb (Nat.zero_le _) with ⟨n, out, hcall, -⟩ | hcall | hcall
  · obtain ⟨q, hfront, hlen, hroom, -⟩ := (Pico.phrParseRequest_ok_iff simd hb).1 hcall
    refine Or.inl ⟨q, hfront, hroom, ?_⟩
    rw [parsePico, Pico.phrParseRequest, hcall, hlen]
    rfl
  · refine Or.inr ⟨-1, by decide, ?_⟩
    rw [parsePico, Pico.phrParseRequest, hcall]
    rfl
  · refine Or.inr ⟨-2, by decide, ?_⟩
    rw [parsePico, Pico.phrParseRequest, hcall]
    rfl

theorem parsePico_takes : Takes (picoCut 32) (turn (parsePico simd)) (2 ^ 31 - 1) := by
  intro b s n hb
  have hb' : b.length < 2 ^ 31 := by omega
  rw [picoCut_next]
  constructor
  · rintro ⟨s', h⟩
    obtain ⟨hpos, -, hcall⟩ := turn_ok_iff.1 h
    rcases parsePico_cases simd hb' s with ⟨q, hfront, hroom, hq⟩ | ⟨res, hres, hq⟩
    · rw [hcall] at hq
      exact ⟨q, hfront, hroom, (Int.ofNat.inj (Prod.mk.inj (Except.ok.inj hq)).1).symm⟩
    · rw [hcall] at hq
      have := (Prod.mk.inj (Except.ok.inj hq)).1
      omega
  · rintro ⟨q, hfront, hroom, rfl⟩
    refine ⟨(), turn_ok_iff.2 ⟨q.length_pos, hfront.length_le, ?_⟩⟩
    rw [parsePico, (Pico.phrParseRequest_ok_iff simd hb').2 ⟨q, hfront, rfl, hroom, rfl⟩]
    rfl

end

/-! ## The runs -/

/-- Frames are the texts of heads. -/
theorem exists_map_eq {α : Type} {f : α → List Byte} {ws : List (List Byte)} (h : ∀ x ∈ ws, ∃ a, f a = x) :
    ∃ as : List α, as.map f = ws := by
  have hrange : ws ∈ Set.range (List.map f) := by
    rw [Set.range_list_map]
    exact h
  exact hrange

theorem not_prefix_nil {y : StartSyntax} (hd : Head y) : ¬ hd.bytes <+: [] := by
  intro h
  have hpos := head_pos hd
  rw [List.prefix_nil.1 h] at hpos
  exact Nat.lt_irrefl 0 hpos

/-- A `Msg` sees the requests that a `NoopMsg` sees, up to the first with too many headers. -/
theorem benchMsg_loop (simd : Simd) {hs : List (Head requestSyntax)} {rest : List Byte}
    (hrest : ∀ hd : Head requestSyntax, ¬ hd.bytes <+: rest) {fuel : Nat}
    (hb : ((hs.map Head.bytes).flatten ++ rest).length < 2 ^ 31)
    (hf : ((hs.map Head.bytes).flatten ++ rest).length < fuel) (reqNum : UInt32) (m : BenchMsg) :
    requestsLoop (parseBenchMsg simd) fuel ((hs.map Head.bytes).flatten ++ rest) reqNum m =
      if (∃ hd ∈ hs, 10 < hd.lines.length) ∨ 10 < (Message.headersOf (Entry.request.told simd rest 0)).length then
        .error (.fault .range)
      else requestsLoop (parseNoopMsg simd) fuel ((hs.map Head.bytes).flatten ++ rest) reqNum () := by
  induction hs generalizing fuel reqNum m with
  | nil =>
    obtain ⟨fuel, rfl⟩ : ∃ k, fuel = k + 1 := ⟨fuel - 1, by omega⟩
    simp only [List.map_nil, List.flatten_nil, List.nil_append, List.not_mem_nil, false_and, exists_false,
      false_or] at hb hf ⊢
    by_cases hnil : rest = []
    · subst hnil
      have hnone : ¬ 10 < (Message.headersOf (Entry.request.told simd [] 0)).length := by
        rw [Entry.request.told_eq simd (by decide) (Nat.zero_le _)]
        decide
      rw [if_neg hnone]
      rfl
    · have hcode : (answer Entry.request.line rest 0).code < 0 := by
        rcases request_code rest with ⟨hd, hfront, -⟩ | hcode
        · exact absurd hfront (hrest hd)
        · exact hcode
      have hmsg := parseBenchMsg_cases simd hb m
      rw [requestsLoop_turn hnil, requestsLoop_turn hnil, turn_refused (parseNoopMsg_eq simd hb ()) hcode.le]
      split_ifs at hmsg ⊢ with hmany
      · rw [turn, hmsg]
      · obtain ⟨m', hm'⟩ := hmsg
        rw [turn_refused hm' hcode.le]
  | cons hd hs ih =>
    obtain ⟨fuel, rfl⟩ : ∃ k, fuel = k + 1 := ⟨fuel - 1, by omega⟩
    simp only [List.map_cons, List.flatten_cons, List.append_assoc] at hb hf ⊢
    have hne : hd.bytes ++ ((hs.map Head.bytes).flatten ++ rest) ≠ [] :=
      List.append_ne_nil_of_left_ne_nil (List.ne_nil_of_length_pos (head_pos hd)) _
    obtain ⟨hcode, -, hevents⟩ := answer_head requestGrammar hd ((hs.map Head.bytes).flatten ++ rest)
    have hle : hd.bytes.length ≤ (hd.bytes ++ ((hs.map Head.bytes).flatten ++ rest)).length := by simp
    have hnoop : turn (parseNoopMsg simd) (hd.bytes ++ ((hs.map Head.bytes).flatten ++ rest)) () =
        .ok (hd.bytes.length, ()) := by
      refine turn_ok_iff.2 ⟨head_pos hd, hle, ?_⟩
      rw [parseNoopMsg_eq simd hb]
      exact congrArg (fun code => Except.ok (code, ())) hcode
    have hmsg := parseBenchMsg_cases simd hb m
    have hheaders : (Message.headersOf (Entry.request.told simd
        (hd.bytes ++ ((hs.map Head.bytes).flatten ++ rest)) 0)).length = hd.lines.length := by
      rw [Entry.request.told_eq simd hb (Nat.zero_le _)]
      exact (congrArg (fun es => (Message.headersOf es).length) hevents).trans
        (headersOf_head_length (g := requestGrammar) hd)
    rw [hheaders] at hmsg
    rw [requestsLoop_turn hne, requestsLoop_turn hne, hnoop]
    by_cases hmany : 10 < hd.lines.length
    · rw [if_pos hmany] at hmsg
      rw [if_pos (Or.inl ⟨hd, List.mem_cons_self .., hmany⟩), turn, hmsg]
    · rw [if_neg hmany] at hmsg
      obtain ⟨m', hm'⟩ := hmsg
      have hturn : turn (parseBenchMsg simd) (hd.bytes ++ ((hs.map Head.bytes).flatten ++ rest)) m =
          .ok (hd.bytes.length, m') := by
        refine turn_ok_iff.2 ⟨head_pos hd, hle, hm'.trans ?_⟩
        exact congrArg (fun code => Except.ok (code, m')) hcode
      have hlen : ((hs.map Head.bytes).flatten ++ rest).length <
          (hd.bytes ++ ((hs.map Head.bytes).flatten ++ rest)).length := by
        have := head_pos hd
        simp only [List.length_append]
        omega
      rw [hturn]
      simp only [List.drop_left]
      rw [ih (by omega) (by omega)]
      refine if_congr (or_congr_left ?_) rfl rfl
      simp [hmany]

/-- **The benchmark's run over its requests**: it takes off head by head, up to the first bytes that do not begin
with one, and fails there with the code of the parser. There is one way only to take the heads off. A `Msg` fails
where it is told of an eleventh header line. -/
theorem testHttparsed_outcome (simd : Simd) {requests : List Byte} (hb : requests.length < 2 ^ 31) :
    ∃ (hs : List (Head requestSyntax)) (rest : List Byte),
      (hs.map Head.bytes).flatten ++ rest = requests ∧ (∀ hd : Head requestSyntax, ¬ hd.bytes <+: rest) ∧
      (∀ (hs' : List (Head requestSyntax)) (rest' : List Byte), (hs'.map Head.bytes).flatten ++ rest' = requests →
        (∀ hd : Head requestSyntax, ¬ hd.bytes <+: rest') → hs'.map Head.bytes = hs.map Head.bytes ∧ rest' = rest) ∧
      (rest = [] → testHttparsedNoopMsg simd requests = counted hs.length) ∧
      (rest ≠ [] → ∃ res, (Entry.request.observe simd Handler.silent rest 0 ()).code = .ok res ∧ res < 0 ∧
        testHttparsedNoopMsg simd requests = .error (unexpectedResponse res)) ∧
      testHttparsedMsg simd requests =
        if (∃ hd ∈ hs, 10 < hd.lines.length) ∨ 10 < (Message.headersOf (Entry.request.told simd rest 0)).length then
          .error (.fault .range)
        else testHttparsedNoopMsg simd requests := by
  obtain ⟨ws, rest, rfl, hframes, hend⟩ := countRequests_cases (parseNoopMsg_takes simd) hb ()
  obtain ⟨hs, rfl⟩ := exists_map_eq fun x hx => Cut.ofFrames_frame.1 (hframes x hx)
  have hrest : ∀ hd : Head requestSyntax, ¬ hd.bytes <+: rest := by
    intro hd hfront
    rcases hend with ⟨rfl, -⟩ | ⟨-, hnone, -⟩
    · exact not_prefix_nil hd hfront
    · rw [headCut_next.2 ⟨hd, hfront, rfl⟩] at hnone
      cases hnone
  refine ⟨hs, rest, rfl, hrest, ?_, ?_, ?_, ?_⟩
  · intro hs' rest' hsplit hrest'
    exact Cut.split_unique headCut_frames headCut_frames (headCut_none hrest') (headCut_none hrest) hsplit
  · intro hnil
    rcases hend with ⟨-, hrun⟩ | ⟨hne, -⟩
    · rw [List.length_map] at hrun
      exact hrun
    · exact absurd hnil hne
  · intro hne
    have hlen : rest.length < 2 ^ 31 := by
      rw [List.length_append] at hb
      omega
    rcases hend with ⟨hnil, -⟩ | ⟨-, -, s, e, he, hrun⟩
    · exact absurd hnil hne
    · rcases request_code rest with ⟨hd, hfront, -⟩ | hcode
      · exact absurd hfront (hrest hd)
      · rw [turn_refused (parseNoopMsg_eq simd hlen s) hcode.le] at he
        rw [← Except.error.inj he] at hrun
        exact ⟨_, Entry.request.observe_code simd Handler.silent_neverRejects hlen (Nat.zero_le _) (), hcode, hrun⟩
  · rw [testHttparsedMsg, countRequests, benchMsg_loop simd hrest hb (Nat.lt_succ_self _)]
    split_ifs
    · rfl
    · rfl

/-- Two requests, and a third that has just begun. -/
theorem testHttparsed_outcome_begun :
    ∃ (hs : List (Head requestSyntax)) (rest : List Byte),
      (hs.map Head.bytes).flatten ++ rest = ascii "GET / HTTP/1.1\n\nGET / HTTP/1.0\n\nPO" ∧
      testHttparsedMsg .unrolled (ascii "GET / HTTP/1.1\n\nGET / HTTP/1.0\n\nPO") =
        if (∃ hd ∈ hs, 10 < hd.lines.length) ∨
            10 < (Message.headersOf (Entry.request.told .unrolled rest 0)).length then
          .error (.fault .range)
        else testHttparsedNoopMsg .unrolled (ascii "GET / HTTP/1.1\n\nGET / HTTP/1.0\n\nPO") := by
  obtain ⟨hs, rest, hsplit, -, -, -, -, hmsg⟩ := @testHttparsed_outcome .unrolled
    (ascii "GET / HTTP/1.1\n\nGET / HTTP/1.0\n\nPO") (by decide)
  exact ⟨hs, rest, hsplit, hmsg⟩

/-- A `NoopMsg` gets through exactly where the pipeline cuts off the number of heads that is asked for. -/
theorem testHttparsedNoopMsg_pipeline (simd : Simd) {requests : List Byte} (hb : requests.length < 2 ^ 31) :
    testHttparsedNoopMsg simd requests = .ok () ↔
      ∃ ns, Entry.request.pipeline simd Handler.silent (requests.length + 1) requests () = some ns ∧
        UInt32.ofNat ns.length = REQNUM := by
  rw [testHttparsedNoopMsg, parseNoopMsg, countRequests_ok_iff,
    requestsLoop_pipeline .request simd Handler.silent_neverRejects hb, Option.map_eq_some_iff]
  simp only [UInt32.zero_add]

/-- Heads of HTTP/1.d are requests of picohttpparser. -/
theorem picos_of_heads {hs : List (Head requestSyntax)}
    (h : ∀ hd ∈ hs, (http1 hd.start.version.bytes).isSome = true ∧ hd.lines.length ≤ 32) :
    ∃ qs : List Pico.Request, qs.map Pico.Request.bytes = hs.map Head.bytes ∧
      ∀ q ∈ qs, q.out.NoBar ∧ q.headers.lines.length ≤ 32 := by
  induction hs with
  | nil => exact ⟨[], rfl, fun q hq => absurd hq List.not_mem_nil⟩
  | cons hd hs ih =>
    obtain ⟨hver, hlines⟩ := h hd (List.mem_cons_self ..)
    obtain ⟨d, hd'⟩ := Option.isSome_iff_exists.1 hver
    obtain ⟨q, hsame, hbar⟩ := Pico.request_of_head hd hd'
    obtain ⟨qs, hbytes, hall⟩ := ih fun x hx => h x (List.mem_cons_of_mem _ hx)
    refine ⟨q :: qs, ?_, ?_⟩
    · rw [List.map_cons, List.map_cons, hsame.bytes, hbytes]
    · rintro x hx
      rcases List.mem_cons.1 hx with rfl | hx
      · exact ⟨hbar, hsame.lines_length ▸ hlines⟩
      · exact hall x hx

/-- Requests of picohttpparser without `|` in a name are heads. -/
theorem heads_of_picos {qs : List Pico.Request} (h : ∀ q ∈ qs, q.out.NoBar) :
    ∃ hs : List (Head requestSyntax), hs.map Head.bytes = qs.map Pico.Request.bytes := by
  induction qs with
  | nil => exact ⟨[], rfl⟩
  | cons q qs ih =>
    obtain ⟨hd, hsame⟩ := Pico.head_of_request q (h q (List.mem_cons_self ..))
    obtain ⟨hs, hbytes⟩ := ih fun x hx => h x (List.mem_cons_of_mem _ hx)
    exact ⟨hd :: hs, by rw [List.map_cons, List.map_cons, hsame.bytes, hbytes]⟩

/-- On requests of picohttpparser the run counts them. -/
theorem testPicoHttpParser_frames (simd : Simd) {qs : List Pico.Request}
    (hqs : ∀ q ∈ qs, q.headers.lines.length ≤ 32) (hb : (qs.map Pico.Request.bytes).flatten.length < 2 ^ 31) :
    testPicoHttpParser simd (qs.map Pico.Request.bytes).flatten = counted qs.length :=
  (countRequests_frames (parsePico_takes simd) (picoCut_frames hqs) hb ()).trans (congrArg counted (List.length_map _))

/-- On heads the run of this parser counts them. -/
theorem testHttparsedNoopMsg_frames (simd : Simd) {hs : List (Head requestSyntax)}
    (hb : (hs.map Head.bytes).flatten.length < 2 ^ 31) :
    testHttparsedNoopMsg simd (hs.map Head.bytes).flatten = counted hs.length :=
  (countRequests_frames (parseNoopMsg_takes simd) headCut_frames hb ()).trans (congrArg counted (List.length_map _))

/-- The run of picohttpparser is over when its requests are counted, or fails with a code of the parser. -/
theorem testPicoHttpParser_cases (simd : Simd) {requests : List Byte} (hb : requests.length < 2 ^ 31) :
    (∃ qs : List Pico.Request, (qs.map Pico.Request.bytes).flatten = requests ∧
      (∀ q ∈ qs, q.headers.lines.length ≤ 32) ∧ testPicoHttpParser simd requests = counted qs.length) ∨
      ∃ res, testPicoHttpParser simd requests = .error (unexpectedResponse res) := by
  obtain ⟨ws, rest, hsplit, hframes, hend⟩ := countRequests_cases (parsePico_takes simd) hb ()
  rcases hend with ⟨rfl, hrun⟩ | ⟨-, hnone, s, e, he, hrun⟩
  · obtain ⟨qs, rfl⟩ := @exists_map_eq {q : Pico.Request // q.headers.lines.length ≤ 32} (fun q => q.1.bytes) ws
      fun x hx => by
        obtain ⟨q, hroom, hq⟩ := Cut.ofFrames_frame.1 (hframes x hx)
        exact ⟨⟨q, hroom⟩, hq⟩
    refine Or.inl ⟨qs.map Subtype.val, ?_, ?_, ?_⟩
    · rw [← hsplit, List.append_nil, List.map_map]
      rfl
    · intro q hq
      obtain ⟨q', -, rfl⟩ := List.mem_map.1 hq
      exact q'.2
    · rw [List.length_map] at hrun ⊢
      exact hrun
  · have hlen : rest.length < 2 ^ 31 := by
      rw [← hsplit, List.length_append] at hb
      omega
    rcases parsePico_cases simd hlen s with ⟨q, hfront, hroom, -⟩ | ⟨res, hres, hcall⟩
    · rw [picoCut_next.2 ⟨q, hfront, hroom, rfl⟩] at hnone
      cases hnone
    · rw [turn_refused hcall hres.le] at he
      exact Or.inr ⟨res, hrun.trans (congrArg _ (Except.error.inj he).symm)⟩

/-- Where heads and requests of picohttpparser are the same bytes, both parsers count them. -/
theorem testPicoHttpParser_agrees (simd simd' : Simd) {qs : List Pico.Request} {hs : List (Head requestSyntax)}
    (hbytes : qs.map Pico.Request.bytes = hs.map Head.bytes) (hqs : ∀ q ∈ qs, q.headers.lines.length ≤ 32)
    (hb : (hs.map Head.bytes).flatten.length < 2 ^ 31) :
    testPicoHttpParser simd (hs.map Head.bytes).flatten = testHttparsedNoopMsg simd' (hs.map Head.bytes).flatten := by
  have hlength := congrArg List.length hbytes
  rw [List.length_map, List.length_map] at hlength
  rw [testHttparsedNoopMsg_frames simd' hb, ← hlength, ← hbytes]
  exact testPicoHttpParser_frames simd hqs (by rwa [hbytes])

/-- **The run of picohttpparser over the same requests** succeeds exactly on 275 requests of its grammar. Where all
of them are requests of both grammars, it ends as the run of this parser does. -/
theorem testPicoHttpParser_outcome (simd simd' : Simd) {requests : List Byte} (hb : requests.length < 2 ^ 31) :
    (testPicoHttpParser simd requests = .ok () ↔
      ∃ qs : List Pico.Request, qs.length = 275 ∧ (qs.map Pico.Request.bytes).flatten = requests ∧
        ∀ q ∈ qs, q.headers.lines.length ≤ 32) ∧
    (∀ f, testPicoHttpParser simd requests ≠ .error (.fault f)) ∧
    (∀ hs : List (Head requestSyntax), (hs.map Head.bytes).flatten = requests →
      (∀ hd ∈ hs, (http1 hd.start.version.bytes).isSome = true ∧ hd.lines.length ≤ 32) →
        testPicoHttpParser simd requests = testHttparsedNoopMsg simd' requests) ∧
    (∀ qs : List Pico.Request, (qs.map Pico.Request.bytes).flatten = requests →
      (∀ q ∈ qs, q.out.NoBar ∧ q.headers.lines.length ≤ 32) →
        testPicoHttpParser simd requests = testHttparsedNoopMsg simd' requests) := by
  refine ⟨⟨?_, ?_⟩, ?_, ?_, ?_⟩
  · intro hok
    rcases testPicoHttpParser_cases simd hb with ⟨qs, hflat, hroom, hrun⟩ | ⟨res, hrun⟩
    · rw [hok, counted] at hrun
      split_ifs at hrun with hlen
      exact ⟨qs, hlen, hflat, hroom⟩
    · rw [hok] at hrun
      cases hrun
  · rintro ⟨qs, hlen, rfl, hall⟩
    rw [testPicoHttpParser_frames simd hall hb, hlen]
    rfl
  · intro f hf
    rcases testPicoHttpParser_cases simd hb with ⟨qs, -, -, hrun⟩ | ⟨res, hrun⟩
    · rw [hf, counted] at hrun
      split_ifs at hrun
      cases hrun
    · rw [hf] at hrun
      cases hrun
  · rintro hs rfl hall
    obtain ⟨qs, hbytes, hqs⟩ := picos_of_heads hall
    exact testPicoHttpParser_agrees simd simd' hbytes (fun q hq => (hqs q hq).2) hb
  · rintro qs rfl hall
    obtain ⟨hs, hbytes⟩ := heads_of_picos fun q hq => (hall q hq).1
    rw [← hbytes] at hb ⊢
    exact testPicoHttpParser_agrees simd simd' hbytes.symm (fun q hq => (hall q hq).2) hb

/-- A request of both grammars. -/
def plainRequest : Pico.Request where
  lead := none
  method := word "HEAD" (by decide) (by decide)
  gap₁ := oneSpace
  path := getLine.uri
  gap₂ := oneSpace
  version := ⟨twoFields.minor, twoFields.digit⟩
  eol := .crlf
  headers := ⟨[⟨.named (word "B" (by decide) (by decide)) ⟨ascii " d", List.all_eq_true.1 (by decide)⟩, .crlf⟩],
    fun _ h => Option.some.inj h ▸ rfl, .crlf⟩

/-- As many as the benchmark asks for. -/
def plainRequests : List Byte := ((List.replicate 275 plainRequest).map Pico.Request.bytes).flatten

theorem plainRequest_noBar : plainRequest.out.NoBar := by
  unfold Pico.PhrRequest.NoBar
  decide

theorem plainRequests_length : plainRequests.length < 2 ^ 31 := by
  rw [plainRequests, List.map_replicate, List.length_flatten, List.map_replicate, List.sum_replicate_nat]
  decide

/-- All are taken off, and the run of this parser ends as well. -/
theorem testPicoHttpParser_outcome_full :
    testPicoHttpParser (.sse42 default) plainRequests = .ok () ∧
      testPicoHttpParser (.sse42 default) plainRequests = testHttparsedNoopMsg .unrolled plainRequests := by
  have houtcome := testPicoHttpParser_outcome (.sse42 default) .unrolled plainRequests_length
  have hall : ∀ q ∈ List.replicate 275 plainRequest, q.out.NoBar ∧ q.headers.lines.length ≤ 32 := by
    intro q hq
    rw [List.eq_of_mem_replicate hq]
    exact ⟨plainRequest_noBar, by decide⟩
  exact ⟨houtcome.1.2 ⟨_, List.length_replicate, rfl, fun q hq => (hall q hq).2⟩, houtcome.2.2.2 _ rfl hall⟩

end Httparsed
