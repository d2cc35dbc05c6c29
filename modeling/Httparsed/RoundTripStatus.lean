import Httparsed.RoundTrip

/-!
# Serialised responses

The same for responses: a response with fields of documented tokens is read back as it was written, reason phrase
included, if and only if no bar is in its header names (`response_roundTrip`).
-/

namespace Httparsed

open Transducer Grammar

variable {σ : Type}

/-- A response: its reason does not start with a SP. -/
structure Response where
  minor : Byte
  digit : isDigit minor = true
  code : Code
  reason : Text textByte
  first : ∀ c ∈ reason.bytes.head?, c ≠ SP
  fields : List Field

namespace Response

def version (r : Response) : List Byte := ascii "HTTP/1." ++ [r.minor]

def startBytes (r : Response) : List Byte :=
  r.version ++ SP :: (r.code.bytes ++ SP :: (r.reason.bytes ++ [CR, LF]))

def serialise (r : Response) : List Byte := r.startBytes ++ r.fields.flatMap Field.bytes ++ [CR, LF]

/-- An empty reason is not reported. -/
def events (r : Response) : List (Event (List Byte)) :=
  .onVersion r.version :: .onStatus r.code.value ::
    ((if r.reason.bytes = [] then [] else [.onStatusMsg r.reason.bytes]) ++ r.fields.map Field.event)

/-- The head is accepted whole, and the application hears what was serialised. -/
def RoundTrips (r : Response) (simd : Simd) (h : Handler σ) (body : List Byte) (s : σ) : Prop :=
  (Entry.response.observe simd h (r.serialise ++ body) 0 s).code = .ok (r.serialise.length : Int) ∧
    (Entry.response.observe simd h (r.serialise ++ body) 0 s).calls.map Event.text =
      r.events.filter fun e => h.has e.member

/-! ## The head of a response -/

/-- The status line of a response. -/
def line (r : Response) : StatusLine where
  version := ⟨r.version, by simp [version], by
    intro c hc
    rcases List.mem_append.1 hc with hc | hc
    · exact List.all_eq_true.1 (by decide : (ascii "HTTP/1.").all versionByte = true) c hc
    · rw [List.mem_singleton.1 hc]
      exact versionByte_of_digit _ r.digit⟩
  gap := oneSpace
  code := r.code
  text := ⟨SP :: r.reason.bytes, by
    intro c hc
    rcases List.mem_cons.1 hc with rfl | hc
    · rfl
    · exact r.reason.all c hc⟩
  text_start := by simp
  eol := .crlf

theorem line_bytes (r : Response) : r.line.bytes = r.startBytes := by
  simp [line, startBytes, StatusLine.bytes, oneSpace, Eol.bytes]

/-- The reason that is reported is the reason of the response. -/
theorem line_text (r : Response) (p : Nat) :
    (r.line.events p).map Event.text = .onVersion r.version :: .onStatus r.code.value ::
      (if r.reason.bytes = [] then [] else [.onStatusMsg r.reason.bytes]) := by
  have hreason : (r.line.reason p).bytes = r.reason.bytes := by
    show (SP :: r.reason.bytes).dropWhile (· == SP) = r.reason.bytes
    rw [List.dropWhile_cons, if_pos (beq_self_eq_true SP)]
    cases hr : r.reason.bytes with
    | nil => rfl
    | cons c cs =>
      have hc := r.first c (by rw [hr]; rfl)
      rw [List.dropWhile_cons, if_neg (by simpa using hc)]
  rw [StatusLine.events, hreason]
  split_ifs with hnil
  · rfl
  · show _ = [Event.onVersion r.version, .onStatus r.code.value, .onStatusMsg r.reason.bytes]
    rw [← hreason]
    rfl

def head (r : Response) (hfields : ∀ x ∈ r.fields, BAR ∉ x.name.bytes) : Head statusSyntax where
  lead := none
  start := r.line
  lines := fieldLines r.fields hfields
  opens := fieldLines_opens hfields
  eol := .crlf

theorem head_bytes (r : Response) (hfields : ∀ x ∈ r.fields, BAR ∉ x.name.bytes) :
    (r.head hfields).bytes = r.serialise := by
  show [] ++ r.line.bytes ++ linesBytes (fieldLines r.fields hfields) ++ [CR, LF] = r.serialise
  rw [List.nil_append, line_bytes, fieldLines_bytes]
  rfl

theorem head_text (r : Response) (hfields : ∀ x ∈ r.fields, BAR ∉ x.name.bytes) :
    (r.head hfields).events.map Event.text = r.events := by
  show (r.line.events 0 ++ linesEvents _ (fieldLines r.fields hfields)).map Event.text = r.events
  rw [List.map_append, fieldLines_text, line_text]
  rfl

theorem serialise_pos (r : Response) : 0 < r.serialise.length := by
  simp only [serialise, List.length_append, List.length_cons]
  omega

/-- A bar in a header name, behind headers without one. -/
theorem field_refused {r : Response} {xs ys : List Field} {x : Field} (hfields : r.fields = xs ++ x :: ys)
    (hxs : ∀ y ∈ xs, BAR ∉ y.name.bytes) (hx : BAR ∈ x.name.bytes) (body : List Byte) :
    (answer statusLine (r.serialise ++ body) 0).code = err .token := by
  obtain ⟨u, v, hname, hu⟩ := bar_split hx
  let pre := r.startBytes ++ xs.flatMap Field.bytes
  have hpre : pre = leadBytes none ++ statusGrammar.bytes r.line ++ linesBytes (fieldLines xs hxs) := by
    show _ = [] ++ r.line.bytes ++ _
    rw [List.nil_append, line_bytes, fieldLines_bytes]
  obtain ⟨rest, hrest⟩ : ∃ rest, r.serialise ++ body = pre ++ (u ++ BAR :: rest) := by
    rw [serialise, hfields, List.flatMap_append, List.flatMap_cons, Field.bytes, hname]
    simp only [pre, List.append_assoc, List.cons_append]
    exact ⟨_, rfl⟩
  have hrun : run headerStep pre.length ⟨pre.length, .lineStart (!(fieldLines xs hxs).isEmpty)⟩ (u ++ BAR :: rest) =
      ([], .halted (.error (.token, pre.length)) rest) :=
    run_name_refused pre.length hu tokenByte_BAR (by decide) (Or.inr ⟨by decide, by decide, fun _ => rfl⟩) rest
  rw [hrest, (answer_lines statusGrammar none r.line (fieldLines_opens hxs) hpre _ hrun.symm).1]
  rfl

end Response

/-- **Round trip of responses.** A response with fields of documented tokens, followed by any body, is accepted
whole and reported as it was written if and only if there is no bar in its header names. -/
theorem response_roundTrip (r : Response) (simd : Simd) {h : Handler σ} (hn : h.NeverRejects) (body : List Byte)
    (hlen : (r.serialise ++ body).length < 2 ^ 31) (s : σ) :
    r.RoundTrips simd h body s ↔ ∀ x ∈ r.fields, BAR ∉ x.name.bytes := by
  constructor
  · rintro ⟨hcode, -⟩
    rw [Entry.response.observe_code simd hn hlen (Nat.zero_le _) s] at hcode
    have hne : (answer statusLine (r.serialise ++ body) 0).code ≠ err .token := by
      rw [show (answer statusLine (r.serialise ++ body) 0).code = r.serialise.length from Except.ok.inj hcode]
      have hneg := err_neg .token
      omega
    rcases all_or_split (fun x : Field => decide (BAR ∉ x.name.bytes)) r.fields with hall | ⟨xs, x, ys, hsplit, hxs, hx⟩
    · exact fun x hx => of_decide_eq_true (hall x hx)
    · have hbar : BAR ∈ x.name.bytes := not_not.1 (of_decide_eq_false hx)
      exact absurd (Response.field_refused hsplit (fun y hy => of_decide_eq_true (hxs y hy)) hbar body) hne
  · intro hfields
    have hbytes := r.head_bytes hfields
    obtain ⟨hcode, hcalls⟩ := (Entry.response.accepts simd hn hlen s r.serialise_pos _).2
      ⟨r.head hfields, ⟨body, congrArg (· ++ body) hbytes⟩, congrArg List.length hbytes, rfl⟩
    refine ⟨hcode, ?_⟩
    rw [hcalls, Handler.hears, ← r.head_text hfields, List.filter_map]
    congr 1
    refine List.filter_congr fun e _ => ?_
    rw [Function.comp_apply, Event.text, Event.map_member]

theorem isDigit_four : isDigit 0x34 = true := rfl

theorem nil_first : ∀ c ∈ ([] : List Byte).head?, c ≠ SP := by simp

/-- A response without a reason, with the two headers of the request. -/
def noReason : Response where
  minor := twoFields.minor
  digit := twoFields.digit
  code := ⟨0x34, 0x34, 0x34, isDigit_four, isDigit_four, isDigit_four⟩
  reason := ⟨[], fun _ hc => absurd hc List.not_mem_nil⟩
  first := nil_first
  fields := twoFields.fields

theorem response_roundTrip_empty : noReason.RoundTrips (.sse42 default) Handler.recorder (ascii "x") () :=
  (response_roundTrip noReason (.sse42 default) Handler.recorder_neverRejects (ascii "x") (by decide) ()).2
    (by decide)

end Httparsed
