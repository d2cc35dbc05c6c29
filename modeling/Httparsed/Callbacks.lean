import Httparsed.Lines

/-!
# Callbacks observe and may veto, but never steer

A handler that rejects nothing gets the result a handler without callbacks gets. Any other handler gets the
same calls up to the first one it rejects, and its own answer back; if that one was a header, the call stops
where the line of that header starts (`callbacks_never_steer`).
-/

namespace Httparsed

open Transducer Grammar

variable {σ : Type}

/-- A handler without any callback. -/
def Handler.silent : Handler PUnit := ⟨fun _ => false, fun _ s => (0, s)⟩

theorem Handler.silent_neverRejects : Handler.silent.NeverRejects := fun _ _ hm => absurd hm (by simp [silent])

/-- The header callbacks a call has made. -/
def Report.headers (r : Report σ) : List (Event Slice) := r.calls.filter Event.isHeader

theorem hears_append (h : Handler σ) (a b : List (Event Slice)) : h.hears (a ++ b) = h.hears a ++ h.hears b :=
  List.filter_append ..

theorem hears_headers (h : Handler σ) (es : List (Event Slice)) :
    (h.hears es).filter Event.isHeader = h.hears (es.filter Event.isHeader) := by
  rw [Handler.hears, Handler.hears, List.filter_filter, List.filter_filter]
  exact List.filter_congr fun e _ => Bool.and_comm _ _

theorem filter_isHeader_nil {calls : List (Nat × Event Slice)} (h : ∀ x ∈ calls, x.2.isHeader = false) :
    (calls.map Prod.snd).filter Event.isHeader = [] := by
  apply List.filter_eq_nil_iff.2
  intro e he
  obtain ⟨x, hx, rfl⟩ := List.mem_map.1 he
  rw [h x hx]
  exact Bool.false_ne_true

/-- The header callbacks among the calls of a head. -/
theorem headers_of_calls {start : List (Nat × Event Slice)} (hstart : ∀ x ∈ start, x.2.isHeader = false)
    (q : Nat) (ls : List Line) :
    ((start ++ headerCalls q ls).map Prod.snd).filter Event.isHeader = linesEvents q ls := by
  have hall : (linesEvents q ls).filter Event.isHeader = linesEvents q ls :=
    List.filter_eq_self.2 fun e he => linesEvents_isHeader e he
  rw [List.map_append, headerCalls_events, List.filter_append, filter_isHeader_nil hstart, hall, List.nil_append]

/-- The line a header callback belongs to, `pre` being the callbacks before it. -/
theorem HeaderPart.line {y : StartSyntax} {b : List Byte} {lastPos q m : Nat} {a : Answer} {ls : List Line}
    {e : Event Slice} {pre post : List (Nat × Event Slice)} (hpart : HeaderPart y b lastPos a q ls)
    (hcalls : a.calls = pre ++ (m, e) :: post) (he : e.isHeader = true) :
    ∃ start ls₁ l ls₂, ls = ls₁ ++ l :: ls₂ ∧ pre = start ++ headerCalls q ls₁ ∧
      (∀ x ∈ start, x.2.isHeader = false) ∧ m = q + (linesBytes ls₁).length ∧ e = l.event m := by
  obtain ⟨start, hstart, hno⟩ := hpart.calls
  rw [hcalls] at hstart
  rcases List.append_eq_append_iff.1 hstart with ⟨mid, rfl, hmid⟩ | ⟨mid, rfl, hmid⟩
  · -- before the header lines there is no header callback
    cases mid with
    | nil =>
      obtain ⟨ls₁, l, ls₂, rfl, h1, h2⟩ :=
        mem_headerCalls (show headerCalls q ls = [] ++ (m, e) :: post from hmid.symm)
      obtain ⟨rfl, rfl⟩ := Prod.mk.inj h2
      exact ⟨pre, ls₁, l, ls₂, rfl, by rw [← h1, List.append_nil], fun x hx => (hno x (by simpa using hx)).1, rfl, rfl⟩
    | cons z mid =>
      obtain ⟨rfl, -⟩ := List.cons.inj hmid
      have hfalse := (hno (m, e) (by simp)).1
      rw [he] at hfalse
      cases hfalse
  · obtain ⟨ls₁, l, ls₂, rfl, rfl, h2⟩ := mem_headerCalls hmid
    obtain ⟨rfl, rfl⟩ := Prod.mk.inj h2
    exact ⟨start, ls₁, l, ls₂, rfl, rfl, fun x hx => (hno x hx).1, rfl, rfl⟩

/-- The calls of a run that ends with a refusal: those that were accepted, and the refused one. -/
theorem Report.calls_refused {r : Report σ} {h : Handler σ} {log : List (Event Slice × Int)} {es : List (Event Slice)}
    {e : Event Slice} {code : Int} (hlog : r.log = log ++ [(e, code)]) (hpre : log.map Prod.fst = h.hears es)
    (hm : h.has e.member = true) : r.calls = h.hears (es ++ [e]) := by
  have hlast : h.hears [e] = [e] := by simp [Handler.hears, hm]
  rw [Report.calls, hlog, List.map_append, hpre, hears_append, hlast]
  rfl

/-- The callbacks of an answer up to one of them. -/
theorem Answer.events_upTo {a : Answer} {pre post : List (Nat × Event Slice)} {m : Nat} {e : Event Slice}
    (hcalls : a.calls = pre ++ (m, e) :: post) : pre.map Prod.snd ++ [e] <+: a.events := by
  refine ⟨post.map Prod.snd, ?_⟩
  rw [Answer.events, hcalls, List.map_append, List.map_cons, List.append_assoc]
  rfl

/-- The callbacks an application gets are the first of the answer's, those it has a member for. -/
theorem Entry.observe_calls (entry : Entry) (simd : Simd) (h : Handler σ) {b : List Byte} (hb : b.length < 2 ^ 31)
    {lastPos : Nat} (hpos : lastPos ≤ b.length) (s : σ) :
    ∃ es, es <+: (answer entry.line b lastPos).events ∧ (entry.observe simd h b lastPos s).calls = h.hears es := by
  rcases entry.observe_spec simd h hb hpos s with ⟨-, hcalls, -⟩ |
      ⟨pre, m, e, post, log, r, hsplit, hm, hlog, -, -, hpre, -⟩
  · exact ⟨_, List.prefix_rfl, hcalls⟩
  · exact ⟨_, Answer.events_upTo hsplit, Report.calls_refused hlog hpre hm⟩

/-- **Callbacks observe and may veto, but never steer.** -/
theorem callbacks_never_steer (entry : Entry) (simd : Simd) (h : Handler σ) {b : List Byte} (hb : b.length < 2 ^ 31)
    {lastPos : Nat} (hpos : lastPos ≤ b.length) (s : σ) :
    (h.NeverRejects →
      (entry.observe simd h b lastPos s).result = (entry.observe simd Handler.silent b lastPos ()).result) ∧
    ∀ (τ : Type) (h' : Handler τ) (t : τ), h'.has = h.has → h'.NeverRejects →
      ((∀ x ∈ (entry.observe simd h b lastPos s).log, 0 ≤ x.2) ∧
        (entry.observe simd h b lastPos s).calls = (entry.observe simd h' b lastPos t).calls ∧
        (entry.observe simd h b lastPos s).result = (entry.observe simd Handler.silent b lastPos ()).result) ∨
      ∃ (log : List (Event Slice × Int)) (e : Event Slice) (r : Int) (m : Nat),
        (entry.observe simd h b lastPos s).log = log ++ [(e, r)] ∧ (∀ x ∈ log, 0 ≤ x.2) ∧ r < 0 ∧
        (entry.observe simd h b lastPos s).calls <+: (entry.observe simd h' b lastPos t).calls ∧
        (entry.observe simd h b lastPos s).result = .ok (r, m) ∧
        (e.isHeader = true →
          ∃ (q : Nat) (ls : List Line) (l : Line) (post : List Byte),
            (if lastPos = 0 then StartLineEnd entry.grammar.toStartSyntax b q else q = lastPos) ∧
            b.drop q = linesBytes ls ++ (l.bytes ++ post) ∧ m = q + (linesBytes ls).length ∧ e = l.event m ∧
            (log.map Prod.fst).filter Event.isHeader = h.hears (linesEvents q ls)) := by
  have hsilent := (entry.observe_accepting simd Handler.silent_neverRejects hb hpos ()).1
  refine ⟨fun hn => ?_, ?_⟩
  · rw [hsilent, (entry.observe_accepting simd hn hb hpos s).1]
  intro τ h' t hhas hn'
  have hcalls' := (entry.observe_accepting simd hn' hb hpos t).2
  have hhears : ∀ es, h'.hears es = h.hears es := fun es => by rw [Handler.hears, Handler.hears, hhas]
  rw [hcalls', hhears, hsilent]
  rcases entry.observe_spec simd h hb hpos s with ⟨h1, h2, h3⟩ |
      ⟨pre, m, e, post, log, r, hsplit, hm, h1, h2, h3, h4, h5⟩
  · exact Or.inl ⟨h1, h2, h3⟩
  · refine Or.inr ⟨log, e, r, m, h1, h3, h2, ?_, h5, ?_⟩
    · rw [Report.calls_refused h1 h4 hm]
      exact (Answer.events_upTo hsplit).filter _
    · intro he
      obtain ⟨q, ls, hpart⟩ : ∃ q ls,
          HeaderPart entry.grammar.toStartSyntax b lastPos (answer entry.line b lastPos) q ls := by
        rcases headerPart_or_none entry.grammar hpos with hpart | ⟨-, -, hno⟩
        · exact hpart
        · have hfalse := hno (m, e) (by rw [hsplit]; simp)
          rw [he] at hfalse
          cases hfalse
      obtain ⟨start, ls₁, l, ls₂, rfl, rfl, hno, rfl, rfl⟩ := hpart.line hsplit he
      obtain ⟨closing, post', hdrop, -, -⟩ := hpart.covers
      refine ⟨q, ls₁, l, linesBytes ls₂ ++ (closing ++ post'), hpart.begins, ?_, rfl, rfl, ?_⟩
      · rw [hdrop, linesBytes_append]
        simp only [linesBytes, List.flatMap_cons, List.append_assoc]
      · rw [h4]
        rw [hears_headers, headers_of_calls hno]

/-- A head with two header lines. -/
def twoLines : List Byte := ascii "GET / HTTP/1.0\na: b\nc: d\n\n"

/-- Accepts everything but headers. -/
def Handler.noHeaders : Handler PUnit := ⟨fun _ => true, fun e s => (if e.isHeader then -7 else 0, s)⟩

theorem callbacks_never_steer_noHeaders :
    (Entry.request.observe .unrolled Handler.recorder twoLines 0 ()).result =
        (Entry.request.observe .unrolled Handler.silent twoLines 0 ()).result ∧
      (Entry.request.observe .unrolled Handler.noHeaders twoLines 0 ()).calls <+:
        (Entry.request.observe .unrolled Handler.recorder twoLines 0 ()).calls := by
  constructor
  · exact (callbacks_never_steer .request .unrolled Handler.recorder (b := twoLines) (by decide) (Nat.zero_le _) ()).1
      Handler.recorder_neverRejects
  · rcases (callbacks_never_steer .request .unrolled Handler.noHeaders (b := twoLines) (by decide)
      (Nat.zero_le _) ()).2 PUnit
      Handler.recorder () rfl Handler.recorder_neverRejects with ⟨-, h, -⟩ | ⟨_, _, _, _, -, -, -, h, -⟩
    · exact ⟨[], by rw [h, List.append_nil]⟩
    · exact h

end Httparsed
