import Httparsed.PicoRun
import Httparsed.ViableStatus

/-!
# What picohttpparser waits for

A call without `last_len` answers `-2` to a buffer that is the strict beginning of a message there is room for, and
sixteen more bytes make one of it (`phr_viable`). It does so for some buffers more, which no bytes make a message
of: the version is looked at when there are nine bytes (picohttpparser.c:283), the status code when there are four
(:446), an empty method is refused behind the path (:381), and garbage behind the status code at the end of its line
(:466). These are `DoomedRequest` and `DoomedResponse`; a header section alone has none.
-/

namespace Httparsed.Pico

open Grammar

/-! ## What an incomplete part is -/

/-- The answer is `-2`. -/
def Incomplete {α : Type} (x : Except Stop α) : Prop := x = .error (.ret (-2))

theorem not_incomplete_ok {α : Type} (a : α) : ¬ Incomplete (.ok a : Except Stop α) := by
  rintro ⟨⟩

theorem not_incomplete_refused {α : Type} : ¬ Incomplete (.error (.ret (-1)) : Except Stop α) := by
  rintro ⟨⟩

theorem bind_incomplete_iff {α β : Type} {x : Except Stop α} {f : α → Except Stop β} :
    Incomplete (x >>= f) ↔ Incomplete x ∨ ∃ a, x = .ok a ∧ Incomplete (f a) := by
  cases x with
  | ok a =>
    constructor
    · intro h
      exact Or.inr ⟨a, rfl, h⟩
    · rintro (h | ⟨b, h, hf⟩)
      · exact absurd h (not_incomplete_ok a)
      · obtain rfl := Except.ok.inj h
        exact hf
  | error e =>
    constructor
    · intro h
      exact Or.inl (congrArg Except.error (Except.error.inj h))
    · rintro (h | ⟨b, h, -⟩)
      · exact congrArg Except.error (Except.error.inj h)
      · cases h

section

variable {p : Nat} {bytes : List Byte}

theorem not_incomplete_get (s : Slice) (i : Nat) : ¬ Incomplete (s.get i) := by
  cases h : s.bytes[i]? with
  | none =>
    simp only [Slice.get, h]
    rintro ⟨⟩
  | some c =>
    simp only [Slice.get, h]
    exact not_incomplete_ok c

theorem checkEof_incomplete_iff : Incomplete (checkEof ⟨p, bytes⟩) ↔ bytes = [] := by
  cases bytes with
  | nil => exact iff_of_true rfl rfl
  | cons c cs => exact iff_of_false (not_incomplete_ok _) (List.cons_ne_nil c cs)

theorem expectChar_incomplete_iff {ch : Byte} : Incomplete (expectChar ch ⟨p, bytes⟩) ↔ bytes = [] := by
  cases bytes with
  | nil => exact iff_of_true rfl rfl
  | cons c cs =>
    refine iff_of_false ?_ (List.cons_ne_nil c cs)
    rw [expectChar_cons]
    split_ifs
    · exact not_incomplete_refused
    · exact not_incomplete_ok _

theorem newLine_incomplete_iff : Incomplete (newLine ⟨p, bytes⟩) ↔ bytes = [CR] := by
  cases bytes with
  | nil => exact iff_of_false (by rintro ⟨⟩) (List.cons_ne_nil _ _).symm
  | cons c cs =>
    rw [newLine, get_cons, ok_bind, sliceFrom_cons, ok_bind, List.cons.injEq]
    by_cases hCR : c = CR
    · rw [if_pos hCR, bind_incomplete_iff, expectChar_incomplete_iff]
      constructor
      · rintro (h | ⟨a, -, h⟩)
        · exact ⟨hCR, h⟩
        · exact absurd h (not_incomplete_ok _)
      · exact fun h => Or.inl h.2
    · rw [if_neg hCR]
      refine iff_of_false ?_ fun h => hCR h.1
      split_ifs
      · exact not_incomplete_ok _
      · exact not_incomplete_ok _

theorem scanRest_incomplete_iff {P : Byte → Bool} {next : Byte} (h : P next = false) :
    Incomplete (scanRest P next p bytes) ↔ ∀ c ∈ bytes, P c = true := by
  induction bytes generalizing p with
  | nil => exact iff_of_true rfl fun c hc => absurd hc List.not_mem_nil
  | cons c cs ih =>
    rw [scanRest, List.forall_mem_cons]
    by_cases hnext : c = next
    · rw [if_pos hnext]
      refine iff_of_false (not_incomplete_ok _) fun hall => ?_
      rw [hnext, h] at hall
      exact absurd hall.1 Bool.false_ne_true
    · rw [if_neg hnext]
      by_cases hc : P c = true
      · rw [if_pos hc, ih]
        exact (and_iff_right hc).symm
      · rw [if_neg hc]
        exact iff_of_false not_incomplete_refused fun hall => hc hall.1

theorem scanRest_text_incomplete_iff {P : Byte → Bool} {next : Byte} (h : P next = false) (start : Slice) :
    Incomplete (scanRest P next p bytes >>= fun r => .ok (upTo start r, r)) ↔ ∀ c ∈ bytes, P c = true := by
  rw [bind_incomplete_iff, scanRest_incomplete_iff h]
  refine or_iff_left ?_
  rintro ⟨a, -, h⟩
  exact not_incomplete_ok _ h

theorem parseToken_incomplete_iff (simd : Simd) {next_char : Byte} (h : isToken next_char = false) :
    Incomplete (parseToken simd next_char ⟨p, bytes⟩) ↔ ∀ c ∈ bytes, isToken c = true := by
  rw [parseToken_eq simd h]
  exact scanRest_text_incomplete_iff h _

theorem advanceToken_incomplete_iff (simd : Simd) :
    Incomplete (advanceToken simd ⟨p, bytes⟩) ↔ ∀ c ∈ bytes, uriByte c = true := by
  rw [advanceToken_eq]
  exact scanRest_text_incomplete_iff uriByte_leaves.next_out _

theorem skipSpaces_incomplete_iff (c : Byte) :
    Incomplete (skipSpaces p (c :: bytes)) ↔ ∀ d ∈ bytes, d = SP := by
  induction bytes generalizing p c with
  | nil => exact iff_of_true rfl fun d hd => absurd hd List.not_mem_nil
  | cons d ds ih =>
    rw [skipSpaces, List.forall_mem_cons]
    by_cases hd : d = SP
    · rw [if_pos hd, ih]
      exact (and_iff_right hd).symm
    · rw [if_neg hd]
      exact iff_of_false (not_incomplete_ok _) fun hall => hd hall.1

theorem skipBlanks_incomplete_iff : Incomplete (skipBlanks p bytes) ↔ ∀ c ∈ bytes, blank c = true := by
  induction bytes generalizing p with
  | nil => exact iff_of_true rfl fun c hc => absurd hc List.not_mem_nil
  | cons c cs ih =>
    rw [skipBlanks, List.forall_mem_cons]
    by_cases hc : blank c = true
    · rw [if_pos (blank_iff.1 hc), ih]
      exact (and_iff_right hc).symm
    · rw [if_neg (mt blank_iff.2 hc)]
      exact iff_of_false (not_incomplete_ok _) fun hall => hc hall.1

theorem eolLoop_incomplete_iff : Incomplete (eolLoop p bytes) ↔ ∀ c ∈ bytes, textByte c = true := by
  induction bytes generalizing p with
  | nil => exact iff_of_true rfl fun c hc => absurd hc List.not_mem_nil
  | cons c cs ih =>
    rw [List.forall_mem_cons]
    cases hc : textByte c with
    | false =>
      rw [eolLoop_stop hc]
      exact iff_of_false (not_incomplete_ok _) fun hall => Bool.false_ne_true hall.1
    | true =>
      have hskip := @eolLoop_skip p [c] (fun d hd => by rw [List.mem_singleton.1 hd, hc]) cs
      rw [List.singleton_append] at hskip
      rw [hskip, ih]
      exact (and_iff_right rfl).symm

/-- A line end of which the LF is missing. -/
def BegunEol (t : List Byte) : Prop := t = [] ∨ t = [CR]

theorem BegunEol.eol {t : List Byte} (h : BegunEol t) : ∃ eol : Eol, t ++ [LF] = eol.bytes := by
  rcases h with rfl | rfl
  · exact ⟨.lf, rfl⟩
  · exact ⟨.crlf, rfl⟩

theorem getTokenToEol_incomplete_iff (simd : Simd) :
    Incomplete (getTokenToEol simd ⟨p, bytes⟩) ↔
      ∃ (w : Text textByte) (t : List Byte), bytes = w.bytes ++ t ∧ BegunEol t := by
  rw [getTokenToEol_eq, bind_incomplete_iff, eolLoop_incomplete_iff]
  constructor
  · rintro (h | ⟨ctl, hctl, h⟩)
    · exact ⟨⟨bytes, h⟩, [], (List.append_nil _).symm, Or.inl rfl⟩
    · obtain ⟨w, c, tl, rfl, hw, -, rfl⟩ := eolLoop_ok_iff.1 hctl
      rw [foundCtl, get_cons, ok_bind, sliceFrom_cons, ok_bind] at h
      split_ifs at h with hCR hLF
      · rcases bind_incomplete_iff.1 h with h | ⟨a, -, h⟩
        · obtain rfl := expectChar_incomplete_iff.1 h
          exact ⟨⟨w, hw⟩, [c], rfl, Or.inr (by rw [hCR])⟩
        · exact absurd h (not_incomplete_ok _)
      · exact absurd h (not_incomplete_ok _)
      · exact absurd h not_incomplete_refused
  · rintro ⟨w, t, rfl, rfl | rfl⟩
    · rw [List.append_nil]
      exact Or.inl w.all
    · refine Or.inr ⟨_, eolLoop_ok_iff.2 ⟨w.bytes, CR, [], rfl, w.all, rfl, rfl⟩, ?_⟩
      rw [foundCtl, get_cons, ok_bind, if_pos rfl, sliceFrom_cons, ok_bind]
      exact bind_incomplete_iff.2 (Or.inl (expectChar_incomplete_iff.2 rfl))

theorem not_incomplete_parseInt (mul : Int) : ¬ Incomplete (parseInt mul ⟨p, bytes⟩) := by
  cases bytes with
  | nil => rintro ⟨⟩
  | cons c cs =>
    rw [parseInt, get_cons, ok_bind, sliceFrom_cons, ok_bind]
    split_ifs
    · exact not_incomplete_refused
    · exact not_incomplete_ok _

theorem not_incomplete_parseInt3 : ¬ Incomplete (parseInt3 ⟨p, bytes⟩) := by
  intro h
  rcases bind_incomplete_iff.1 h with h | ⟨⟨a, ⟨q, bytes'⟩⟩, -, h⟩
  · exact not_incomplete_parseInt 100 h
  · rcases bind_incomplete_iff.1 h with h | ⟨⟨b, ⟨q', bytes''⟩⟩, -, h⟩
    · exact not_incomplete_parseInt 10 h
    · rcases bind_incomplete_iff.1 h with h | ⟨c, -, h⟩
      · exact not_incomplete_parseInt 1 h
      · exact not_incomplete_ok _ h

theorem not_incomplete_expectChars (chs : List Byte) : ¬ Incomplete (expectChars chs ⟨p, bytes⟩) := by
  induction chs generalizing p bytes with
  | nil => exact not_incomplete_ok _
  | cons ch chs ih =>
    cases bytes with
    | nil => rintro ⟨⟩
    | cons c cs =>
      rw [expectChars, expectCharNoCheck, get_cons, ok_bind, sliceFrom_cons, ok_bind]
      split_ifs
      · exact not_incomplete_refused
      · exact ih

theorem parseHttpVersion_incomplete_iff : Incomplete (parseHttpVersion ⟨p, bytes⟩) ↔ bytes.length < 9 := by
  by_cases h : bytes.length < 9
  · exact iff_of_true (if_pos h) h
  · refine iff_of_false ?_ h
    have hlong : ¬ (Slice.mk p bytes).length < 9 := h
    rw [parseHttpVersion, if_neg hlong, bind_incomplete_iff]
    rintro (h' | ⟨⟨q, bytes'⟩, -, h'⟩)
    · exact not_incomplete_expectChars _ h'
    · exact not_incomplete_parseInt 1 h'

end

/-! ## Header sections -/

section

variable (simd : Simd) {max_headers fuel num p : Nat} {bytes : List Byte} {headers : List PhrHeader}

theorem headerName_incomplete (h : Incomplete (headerName simd num ⟨p, bytes⟩)) :
    ∃ n : Word isToken, bytes = n.bytes ∨ ∃ ws : Text blank, bytes = n.bytes ++ COLON :: ws.bytes := by
  rcases bind_incomplete_iff.1 h with h | ⟨c, hc, h⟩
  · exact absurd h (not_incomplete_get _ 0)
  split_ifs at h
  · exact absurd h (not_incomplete_ok _)
  rcases bind_incomplete_iff.1 h with h | ⟨⟨tok, s⟩, htok, h⟩
  · have hne : bytes ≠ [] := by
      rintro rfl
      cases hc
    exact ⟨⟨bytes, hne, (parseToken_incomplete_iff simd (by decide)).1 h⟩, Or.inl rfl⟩
  · obtain ⟨w, tl, rfl, rfl, rfl⟩ := (parseToken_ok_iff simd (by decide)).1 htok
    simp only at h
    split_ifs at h with hlen
    · exact absurd h not_incomplete_refused
    rw [sliceFrom_cons, ok_bind] at h
    rcases bind_incomplete_iff.1 h with h | ⟨s, -, h⟩
    · refine ⟨⟨w.bytes, fun hw => hlen (List.length_eq_zero_iff.2 hw), w.all⟩, Or.inr ⟨⟨tl, ?_⟩, rfl⟩⟩
      exact skipBlanks_incomplete_iff.1 h
    · exact absurd h (not_incomplete_ok _)

/-- What is missing of a header line is its line end, and a `:` perhaps. -/
theorem parseHeader_incomplete (h : Incomplete (parseHeader simd num ⟨p, bytes⟩)) :
    ∃ (x : List Byte) (l : Line), x.length ≤ 2 ∧ (num = 0 → l.content.isNamed = true) ∧ bytes ++ x = l.bytes := by
  rcases bind_incomplete_iff.1 h with h | ⟨⟨name, s⟩, hname, h⟩
  · obtain ⟨n, rfl | ⟨ws, rfl⟩⟩ := headerName_incomplete simd h
    · refine ⟨[COLON, LF], ⟨.named n ⟨[], by simp⟩, .lf⟩, by decide, fun _ => rfl, ?_⟩
      simp [Line.bytes, Content.bytes, Eol.bytes]
    · refine ⟨[LF], ⟨.named n ⟨ws.bytes, fun c hc => textByte_of_blank (ws.all c hc)⟩, .lf⟩, by decide,
        fun _ => rfl, ?_⟩
      simp [Line.bytes, Content.bytes, Eol.bytes]
  · simp only at h
    rcases bind_incomplete_iff.1 h with hcut | ⟨⟨value, s'⟩, -, hcut⟩
    · rcases headerName_cases simd hname with
        ⟨n, ws, c, tl, rfl, hws, -, rfl, rfl⟩ | ⟨c, cs, h0, rfl, hc, rfl, rfl⟩
      · obtain ⟨w, t, hsplit, ht⟩ := (getTokenToEol_incomplete_iff simd).1 hcut
        obtain ⟨eol, heol⟩ := ht.eol
        refine ⟨[LF], ⟨.named n ⟨ws ++ w.bytes, textByte_blanks hws w⟩, eol⟩, by decide, fun _ => rfl, ?_⟩
        rw [hsplit, Line.bytes, ← heol]
        simp [Content.bytes]
      · obtain ⟨w, t, hsplit, ht⟩ := (getTokenToEol_incomplete_iff simd).1 hcut
        obtain ⟨eol, heol⟩ := ht.eol
        have hne : w.bytes ≠ [] := by
          intro hw
          rw [hw, List.nil_append] at hsplit
          rcases ht with rfl | rfl
          · cases hsplit
          · obtain ⟨rfl, -⟩ := List.cons.inj hsplit
            cases hc
        have hstart : ∀ d ∈ w.bytes.head?, blank d = true := fun d hd => head_of_split hsplit d hd ▸ hc
        refine ⟨[LF], ⟨.continued ⟨w.bytes, hne, w.all⟩ hstart, eol⟩, by decide, fun h => absurd h h0, ?_⟩
        rw [hsplit, Line.bytes, ← heol]
        simp [Content.bytes]
    · simp only at hcut
      rw [trimEnd_eq value (Nat.le_refl _), ok_bind] at hcut
      exact absurd hcut (not_incomplete_ok _)

theorem parseHeaders_incomplete (hle : headers.length ≤ max_headers)
    (h : Incomplete (parseHeaders simd max_headers fuel headers ⟨p, bytes⟩)) :
    ∃ (x : List Byte) (ls : List Line) (eol : Eol), x.length ≤ 3 ∧
      (headers = [] → ∀ l ∈ ls.head?, l.content.isNamed = true) ∧ headers.length + ls.length ≤ max_headers ∧
      bytes ++ x = linesBytes ls ++ eol.bytes := by
  induction fuel generalizing headers p bytes with
  | zero => cases h
  | succ fuel ih =>
    rw [parseHeaders] at h
    rcases bind_incomplete_iff.1 h with h | ⟨_, -, h⟩
    · obtain rfl := checkEof_incomplete_iff.1 h
      exact ⟨[LF], [], .lf, by decide, fun _ _ hl => absurd hl (by simp), hle, rfl⟩
    rcases bind_incomplete_iff.1 h with h | ⟨o, -, h⟩
    · obtain rfl := newLine_incomplete_iff.1 h
      exact ⟨[LF], [], .crlf, by decide, fun _ _ hl => absurd hl (by simp), hle, rfl⟩
    cases o with
    | some s => exact absurd h (not_incomplete_ok _)
    | none =>
      simp only at h
      split_ifs at h with hroom
      · exact absurd h not_incomplete_refused
      rcases bind_incomplete_iff.1 h with h | ⟨⟨header, s⟩, hline, h⟩
      · obtain ⟨x, l, hx, hopens, hl⟩ := parseHeader_incomplete simd h
        refine ⟨x ++ [LF], [l], .lf, by rw [List.length_append, List.length_singleton]; omega, ?_, ?_, ?_⟩
        · rintro rfl l' hl'
          obtain rfl := Option.some.inj hl'
          exact hopens rfl
        · rw [List.length_singleton]
          omega
        · rw [← List.append_assoc, hl]
          simp [linesBytes, Eol.bytes]
      · obtain ⟨l, tl, hopens, rfl, rfl, rfl⟩ := parseHeader_reads simd hline
        have hlen : (headers ++ [l.header p]).length = headers.length + 1 := by simp
        have hrest : Incomplete
            (parseHeaders simd max_headers fuel (headers ++ [l.header p]) ⟨p + l.bytes.length, tl⟩) := h
        obtain ⟨x, ls, eol, hx, -, hle', hbytes⟩ := ih (by omega) hrest
        refine ⟨x, l :: ls, eol, hx, ?_, by rw [List.length_cons]; omega, ?_⟩
        · rintro rfl l' hl'
          obtain rfl := Option.some.inj hl'
          exact hopens rfl
        · rw [linesBytes_cons, List.append_assoc, hbytes, List.append_assoc]

/-- **Wherever `parse_headers` runs out of bytes**, three more complete the section. -/
theorem parseSection_incomplete (h : Incomplete (parseHeaders simd max_headers (max_headers + 1) [] ⟨p, bytes⟩)) :
    ∃ (x : List Byte) (s : Section), x.length ≤ 3 ∧ s.lines.length ≤ max_headers ∧ bytes ++ x = s.bytes := by
  obtain ⟨x, ls, eol, hx, hopens, hle, hbytes⟩ := parseHeaders_incomplete simd (Nat.zero_le _) h
  exact ⟨x, ⟨ls, hopens rfl, eol⟩, hx, by simpa using hle, hbytes⟩

end

/-! ## Requests -/

/-- At most sixteen bytes make a message of what is there. -/
def Completes {μ : Type} (bytes : μ → List Byte) (Room : μ → Prop) (b : List Byte) : Prop :=
  ∃ (x : List Byte) (q : μ), x.length ≤ 16 ∧ Room q ∧ b ++ x = bytes q

/-- The requests there is no hope for although the answer is `-2`: those with an empty method, up to their version
(picohttpparser.c:381), and those that end in fewer than nine bytes of no version (:283). -/
inductive DoomedRequest : List Byte → Prop where
  | method (lead : Option Eol) (gap : Spaces) (path : Text uriByte) (spaces : Text (· == SP)) :
      DoomedRequest (leadBytes lead ++ (gap.bytes ++ (path.bytes ++ spaces.bytes)))
  | version (lead : Option Eol) (method : Word isToken) (gap₁ : Spaces) (path : Word uriByte) (gap₂ : Spaces)
      (rest : List Byte) (hstart : ∃ c ∈ rest.head?, c ≠ SP) (hshort : rest.length < 9)
      (hno : ∀ v : Version, ¬ rest <+: v.bytes) :
      DoomedRequest (leadBytes lead ++ (method.bytes ++ (gap₁.bytes ++ (path.bytes ++ (gap₂.bytes ++ rest)))))

/-- The shortest tokens, to complete a message with. -/
def someMethod : Word isToken := Word.single 0x41 (by decide)

def someMinor : Version := ⟨0x30, isDigit_zero⟩

/-- A section without headers. -/
def emptySection : Section := ⟨[], by simp, .lf⟩

/-- What follows the SPs behind a method, up to the line end. -/
def pathOn : List Byte := someUri.bytes ++ (oneSpace.bytes ++ someMinor.bytes)

/-- A whole start line, up to its end. -/
def methodOn : List Byte := someMethod.bytes ++ (oneSpace.bytes ++ pathOn)

/-- From the version on (picohttpparser.c:385). -/
def requestRest (simd : Simd) (max_headers : Nat) (method path : Slice) (buf : Slice) :
    Except Stop (PhrRequest × Slice) := do
  let (minor_version, buf) ← parseHttpVersion buf
  match ← newLine buf with
  | none => .error (.ret (-1))
  | some buf => do
    let (headers, buf) ← parseHeaders simd max_headers (max_headers + 1) [] buf
    .ok (⟨method, path, minor_version, headers⟩, buf)

section

variable (simd : Simd) {max_headers p : Nat} {b rest : List Byte}

theorem parseRequest_start (max_headers : Nat) (lead : Option Eol) (m : Word isToken) (gap₁ : Spaces)
    (u : Word uriByte) (gap₂ : Spaces) (h : ∃ c ∈ rest.head?, c ≠ SP) :
    ∃ method path q, parseRequest simd max_headers
      ⟨0, leadBytes lead ++ (m.bytes ++ (gap₁.bytes ++ (u.bytes ++ (gap₂.bytes ++ rest))))⟩ =
        requestRest simd max_headers method path ⟨q, rest⟩ := by
  obtain ⟨c, hc, htoken⟩ := word_head m (gap₁.bytes ++ (u.bytes ++ (gap₂.bytes ++ rest)))
  obtain ⟨d, hd, huri⟩ := word_head u (gap₂.bytes ++ rest)
  obtain ⟨o, heof, ho, hlead⟩ := lead_complete lead ⟨c, hc, (isToken_plain c htoken).1, (isToken_plain c htoken).2.1⟩
  refine ⟨⟨(leadBytes lead).length, m.bytes⟩,
    ⟨(leadBytes lead).length + m.bytes.length + gap₁.bytes.length, u.bytes⟩,
    (leadBytes lead).length + m.bytes.length + gap₁.bytes.length + u.bytes.length + gap₂.bytes.length, ?_⟩
  have hlen : ¬ ((Slice.mk (leadBytes lead).length m.bytes).length = 0 ∨
      (Slice.mk ((leadBytes lead).length + m.bytes.length + gap₁.bytes.length) u.bytes).length = 0) := by
    rintro (h | h)
    · exact m.nonempty (List.length_eq_zero_iff.1 h)
    · exact u.nonempty (List.length_eq_zero_iff.1 h)
  rw [parseRequest, heof, ok_bind, ho, ok_bind, hlead, parseToken_word simd m (spaces_head gap₁ _), ok_bind]
  simp only
  rw [skipSpaces_gap gap₁ ⟨d, hd, (uriByte_plain huri).1⟩, ok_bind, advanceToken_word simd u (spaces_head gap₂ _),
    ok_bind]
  simp only
  rw [skipSpaces_gap gap₂ h, ok_bind, if_neg hlen]
  rfl

/-- Fewer than nine bytes are the beginning of a version or not. -/
theorem requestRest_incomplete {method path : Slice}
    (h : Incomplete (requestRest simd max_headers method path ⟨p, rest⟩)) :
    (rest.length < 9 ∧ ∀ v : Version, ¬ rest <+: v.bytes) ∨
      ∃ (x : List Byte) (v : Version) (eol : Eol) (s : Section), x.length ≤ 10 ∧ s.lines.length ≤ max_headers ∧
        rest ++ x = v.bytes ++ (eol.bytes ++ s.bytes) := by
  rcases bind_incomplete_iff.1 h with h | ⟨⟨minor, s⟩, hversion, h⟩
  · have hshort := parseHttpVersion_incomplete_iff.1 h
    by_cases hno : ∃ v : Version, rest <+: v.bytes
    · obtain ⟨v, y, hy⟩ := hno
      have hlen := congrArg List.length hy
      rw [List.length_append, show v.bytes.length = 8 from rfl] at hlen
      refine Or.inr ⟨y ++ [LF, LF], v, .lf, emptySection, ?_, Nat.zero_le _, ?_⟩
      · simp only [List.length_append, List.length_cons, List.length_nil]
        omega
      · rw [← List.append_assoc, hy]
        rfl
    · exact Or.inl ⟨hshort, not_exists.1 hno⟩
  · obtain ⟨v, c, tl, rfl, rfl, rfl⟩ := parseHttpVersion_ok_iff.1 hversion
    right
    rcases bind_incomplete_iff.1 h with h | ⟨o, ho, h⟩
    · rw [newLine_incomplete_iff.1 h]
      refine ⟨[LF, LF], v, .crlf, emptySection, by decide, Nat.zero_le _, ?_⟩
      simp [Eol.bytes, Section.bytes, emptySection, linesBytes]
    cases o with
    | none => exact absurd h not_incomplete_refused
    | some s =>
      obtain ⟨eol, tl', hsplit, rfl⟩ := newLine_some_iff.1 ho
      rcases bind_incomplete_iff.1 h with h | ⟨⟨headers, s⟩, -, h⟩
      · obtain ⟨x, s, hx, hroom, hs⟩ := parseSection_incomplete simd h
        refine ⟨x, v, eol, s, by omega, hroom, ?_⟩
        rw [hsplit, List.append_assoc, List.append_assoc, hs]
      · exact absurd h (not_incomplete_ok _)

/-- A request without headers, from what its text is so far. -/
theorem completes_bare {w : List Byte} (lead : Option Eol) (x : List Byte) (m : Word isToken) (gap₁ : Spaces)
    (u : Word uriByte) (gap₂ : Spaces) (v : Version) (hx : x.length ≤ 13)
    (h : w ++ x = m.bytes ++ (gap₁.bytes ++ (u.bytes ++ (gap₂.bytes ++ v.bytes)))) :
    Completes Request.bytes (fun q => q.headers.lines.length ≤ max_headers) (leadBytes lead ++ w) := by
  refine ⟨x ++ [LF, LF], ⟨lead, m, gap₁, u, gap₂, v, .lf, emptySection⟩, ?_, Nat.zero_le _, ?_⟩
  · simp only [List.length_append, List.length_cons, List.length_nil]
    omega
  · rw [List.append_assoc, ← List.append_assoc w, h]
    simp [Request.bytes, Request.startBytes, emptySection, Section.bytes, linesBytes, Eol.bytes]

theorem spaces_of {w : List Byte} (h : ∀ d ∈ w, d = SP) : ∃ gap : Spaces, gap.bytes = SP :: w := by
  refine ⟨⟨SP :: w, List.cons_ne_nil _ _, ?_⟩, rfl⟩
  rintro c hc
  rcases List.mem_cons.1 hc with rfl | hc
  · rfl
  · rw [h c hc]
    rfl

/-- Where a request is cut in front of its version. -/
theorem parseRequest_front (h : Incomplete (parseRequest simd max_headers ⟨0, b⟩)) :
    DoomedRequest b ∨ Completes Request.bytes (fun q => q.headers.lines.length ≤ max_headers) b ∨
      ∃ (lead : Option Eol) (m : Word isToken) (gap₁ : Spaces) (u : Word uriByte) (gap₂ : Spaces) (rest : List Byte),
        (∃ c ∈ rest.head?, c ≠ SP) ∧
        b = leadBytes lead ++ (m.bytes ++ (gap₁.bytes ++ (u.bytes ++ (gap₂.bytes ++ rest)))) := by
  rcases bind_incomplete_iff.1 h with h | ⟨_, -, h⟩
  · obtain rfl := checkEof_incomplete_iff.1 h
    exact Or.inr (Or.inl (completes_bare none methodOn someMethod oneSpace someUri oneSpace someMinor (by decide) rfl))
  rcases bind_incomplete_iff.1 h with h | ⟨o, ho, h⟩
  · obtain rfl := newLine_incomplete_iff.1 h
    right
    left
    refine ⟨LF :: (methodOn ++ [LF, LF]),
      ⟨some .crlf, someMethod, oneSpace, someUri, oneSpace, someMinor, .lf, emptySection⟩, by decide,
      Nat.zero_le _, rfl⟩
  obtain ⟨lead, b, rfl, hlead⟩ := lead_cases ho
  rw [hlead] at h
  rcases bind_incomplete_iff.1 h with h | ⟨⟨method, s₁⟩, hmethod, h⟩
  · have hall := (parseToken_incomplete_iff simd (by decide)).1 h
    right
    left
    by_cases hnil : b = []
    · subst hnil
      exact completes_bare lead methodOn someMethod oneSpace someUri oneSpace someMinor (by decide) rfl
    · exact completes_bare lead (oneSpace.bytes ++ pathOn) ⟨b, hnil, hall⟩ oneSpace someUri oneSpace someMinor
        (by decide) rfl
  obtain ⟨m, tl₁, rfl, rfl, rfl⟩ := (parseToken_ok_iff simd (by decide)).1 hmethod
  rcases bind_incomplete_iff.1 h with h | ⟨s₂, hgap₁, h⟩
  · obtain ⟨gap₁, hsplit₁⟩ := spaces_of ((skipSpaces_incomplete_iff SP).1 h)
    rw [← hsplit₁]
    by_cases hm : m.bytes = []
    · left
      simpa [hm] using DoomedRequest.method lead gap₁ ⟨[], by simp⟩ ⟨[], by simp⟩
    · exact Or.inr (Or.inl (completes_bare lead pathOn ⟨m.bytes, hm, m.all⟩ gap₁ someUri oneSpace someMinor (by decide)
        (List.append_assoc _ _ _)))
  obtain ⟨gap₁, c, tl₂, hsplit₁, hc, rfl⟩ := skipSpaces_ok_iff.1 hgap₁
  rw [hsplit₁]
  rcases bind_incomplete_iff.1 h with h | ⟨⟨path, s₃⟩, hpath, h⟩
  · have hall := (advanceToken_incomplete_iff simd).1 h
    by_cases hm : m.bytes = []
    · left
      simpa [hm] using DoomedRequest.method lead gap₁ ⟨c :: tl₂, hall⟩ ⟨[], by simp⟩
    · exact Or.inr (Or.inl (completes_bare lead (oneSpace.bytes ++ someMinor.bytes) ⟨m.bytes, hm, m.all⟩ gap₁
        ⟨c :: tl₂, List.cons_ne_nil _ _, hall⟩ oneSpace someMinor (by decide) (by simp)))
  obtain ⟨u, tl₃, hsplit₂, rfl, rfl⟩ := (advanceToken_ok_iff simd).1 hpath
  rw [hsplit₂]
  rcases bind_incomplete_iff.1 h with h | ⟨s₄, hgap₂, h⟩
  · obtain ⟨gap₂, hsplit₃⟩ := spaces_of ((skipSpaces_incomplete_iff SP).1 h)
    rw [← hsplit₃]
    by_cases hm : m.bytes = []
    · left
      simpa [hm] using DoomedRequest.method lead gap₁ u ⟨gap₂.bytes, gap₂.all⟩
    · have hu : u.bytes ≠ [] := by
        intro hu
        rw [hu] at hsplit₂
        exact hc (List.cons.inj hsplit₂).1
      exact Or.inr (Or.inl (completes_bare lead someMinor.bytes ⟨m.bytes, hm, m.all⟩ gap₁ ⟨u.bytes, hu, u.all⟩ gap₂ someMinor
        (by decide) (by simp)))
  obtain ⟨gap₂, d, tl₄, hsplit₃, hd, rfl⟩ := skipSpaces_ok_iff.1 hgap₂
  simp only at h
  split_ifs at h with hempty
  · exact absurd h not_incomplete_refused
  obtain ⟨m', hm⟩ := text_word fun h0 => hempty (Or.inl h0)
  obtain ⟨u', hu⟩ := text_word fun h0 => hempty (Or.inr h0)
  refine Or.inr (Or.inr ⟨lead, m', gap₁, u', gap₂, d :: tl₄, ⟨d, rfl, hd⟩, ?_⟩)
  rw [hm, hu, hsplit₃]

/-- **Wherever `parse_request` runs out of bytes**, sixteen more complete the request, or there is no hope for it. -/
theorem parseRequest_incomplete (h : Incomplete (parseRequest simd max_headers ⟨0, b⟩)) :
    DoomedRequest b ∨ Completes Request.bytes (fun q => q.headers.lines.length ≤ max_headers) b := by
  rcases parseRequest_front simd h with hdoomed | hcompletes | ⟨lead, m, gap₁, u, gap₂, rest, hstart, rfl⟩
  · exact Or.inl hdoomed
  · exact Or.inr hcompletes
  · obtain ⟨method, path, q, hrest⟩ := parseRequest_start simd max_headers lead m gap₁ u gap₂ hstart
    rw [hrest] at h
    rcases requestRest_incomplete simd h with ⟨hshort, hno⟩ | ⟨x, v, eol, s, hx, hroom, hbytes⟩
    · exact Or.inl (.version lead m gap₁ u gap₂ rest hstart hshort hno)
    · refine Or.inr ⟨x, ⟨lead, m, gap₁, u, gap₂, v, eol, s⟩, by omega, hroom, ?_⟩
      simp only [Request.bytes, Request.startBytes, List.append_assoc, hbytes]

/-- A request without a method is refused, but only behind the SPs that end its path. -/
theorem parseRequest_noMethod (lead : Option Eol) {w : List Byte} (hw : w.head? = some SP) :
    parseRequest simd max_headers ⟨0, leadBytes lead ++ w⟩ = (do
      let buf ← skipSpaces (leadBytes lead).length w
      let (_, buf) ← advanceToken simd buf
      let _ ← skipSpaces buf.ptr buf.bytes
      .error (.ret (-1))) := by
  obtain ⟨o, heof, ho, hlead⟩ := lead_complete lead ⟨SP, hw, by decide, by decide⟩
  obtain ⟨tl, rfl⟩ := List.head?_eq_some_iff.1 hw
  have htoken : parseToken simd SP ⟨(leadBytes lead).length, SP :: tl⟩ =
      .ok (⟨(leadBytes lead).length, []⟩, ⟨(leadBytes lead).length, SP :: tl⟩) :=
    (parseToken_ok_iff simd (by decide)).2 ⟨⟨[], by simp⟩, tl, rfl, rfl, rfl⟩
  rw [parseRequest, heof, ok_bind, ho, ok_bind, hlead, htoken, ok_bind]
  simp only [Slice.length, List.length_nil, true_or, if_true]

theorem DoomedRequest.incomplete (h : DoomedRequest b) : Incomplete (parseRequest simd max_headers ⟨0, b⟩) := by
  cases h with
  | method lead gap path spaces =>
    rw [parseRequest_noMethod simd lead (spaces_head gap _)]
    have hspaces : ∀ d ∈ spaces.bytes, d = SP := fun d hd => by simpa using spaces.all d hd
    cases hpath : path.bytes with
    | nil =>
      obtain ⟨tl, htl⟩ := List.head?_eq_some_iff.1 (spaces_head gap ([] ++ spaces.bytes))
      refine bind_incomplete_iff.2 (Or.inl ?_)
      rw [htl, skipSpaces_incomplete_iff]
      intro d hd
      have hmem : d ∈ gap.bytes ++ ([] ++ spaces.bytes) := by
        rw [htl]
        exact List.mem_cons_of_mem _ hd
      rcases List.mem_append.1 hmem with hd | hd
      · simpa using gap.all d hd
      · exact hspaces d hd
    | cons c cs =>
      have hall := path.all
      rw [hpath] at hall
      have hword := (uriByte_plain (hall c (List.mem_cons_self ..))).1
      rw [skipSpaces_gap gap ⟨c, rfl, hword⟩, ok_bind]
      cases hend : spaces.bytes with
      | nil =>
        refine bind_incomplete_iff.2 (Or.inl ?_)
        rw [List.append_nil, advanceToken_incomplete_iff]
        exact hall
      | cons d ds =>
        rw [hend] at hspaces
        obtain rfl := hspaces d (List.mem_cons_self ..)
        have htoken := @advanceToken_word simd ((leadBytes lead).length + gap.bytes.length)
          ⟨c :: cs, List.cons_ne_nil _ _, hall⟩ (SP :: ds) rfl
        refine bind_incomplete_iff.2 (Or.inr ⟨_, htoken, bind_incomplete_iff.2 (Or.inl ?_)⟩)
        exact (skipSpaces_incomplete_iff SP).2 fun d hd => hspaces d (List.mem_cons_of_mem _ hd)
  | version lead m gap₁ u gap₂ rest hstart hshort hno =>
    obtain ⟨method, path, q, hrest⟩ := parseRequest_start simd max_headers lead m gap₁ u gap₂ hstart
    rw [hrest]
    exact bind_incomplete_iff.2 (Or.inl (parseHttpVersion_incomplete_iff.2 hshort))

theorem DoomedRequest.never (h : DoomedRequest b) (x : List Byte) {out : PhrRequest} {r : Slice} :
    parseRequest simd max_headers ⟨0, b ++ x⟩ ≠ .ok (out, r) := by
  intro hread
  cases h with
  | method lead gap path spaces =>
    rw [List.append_assoc, List.append_assoc, parseRequest_noMethod simd lead (spaces_head gap _)] at hread
    obtain ⟨s₁, -, hread⟩ := bind_ok_iff.1 hread
    obtain ⟨⟨path, s₂⟩, -, hread⟩ := bind_ok_iff.1 hread
    obtain ⟨s₃, -, hread⟩ := bind_ok_iff.1 hread
    cases hread
  | version lead m gap₁ u gap₂ rest hstart hshort hno =>
    obtain ⟨method, path, q, hrest⟩ :=
      parseRequest_start simd max_headers lead m gap₁ u gap₂ (start_append hstart x)
    simp only [List.append_assoc] at hread
    rw [hrest] at hread
    obtain ⟨⟨minor, s⟩, hversion, -⟩ := bind_ok_iff.1 hread
    obtain ⟨v, c, tl, hsplit, -, -⟩ := parseHttpVersion_ok_iff.1 hversion
    exact hno v (List.prefix_of_prefix_length_le ⟨x, hsplit⟩ (List.prefix_append _ _) (Nat.le_of_lt_succ hshort))

end

/-! ## Responses -/

/-- The responses there is no hope for although the answer is `-2`: fewer than nine bytes of no version
(picohttpparser.c:283), fewer than four of no status code (:446), and garbage behind the code up to the end of its
line (:466). -/
inductive DoomedResponse : List Byte → Prop where
  | version (rest : List Byte) (hshort : rest.length < 9) (hno : ∀ v : Version, ¬ rest <+: v.bytes) :
      DoomedResponse rest
  | code (v : Version) (gap : Spaces) (rest : List Byte) (hstart : ∃ c ∈ rest.head?, c ≠ SP)
      (hshort : rest.length < 4) (hno : ∀ k : Code, ¬ rest <+: k.bytes) :
      DoomedResponse (v.bytes ++ (gap.bytes ++ rest))
  | text (v : Version) (gap : Spaces) (k : Code) (garbage : Word textByte) (t : List Byte)
      (hstart : ∀ c ∈ garbage.bytes.head?, c ≠ SP) (ht : BegunEol t) :
      DoomedResponse (v.bytes ++ (gap.bytes ++ (k.bytes ++ (garbage.bytes ++ t))))

/-- From the status code on (picohttpparser.c:446). -/
def responseRest (simd : Simd) (max_headers : Nat) (minor_version : Int) (buf : Slice) :
    Except Stop (PhrResponse × Slice) :=
  if buf.length < 4 then .error (.ret (-2))
  else do
    let (status, start) ← parseInt3 buf
    let (msg, buf) ← getTokenToEol simd start
    let msg ← trimMsg start msg
    let (headers, buf) ← parseHeaders simd max_headers (max_headers + 1) [] buf
    .ok (⟨minor_version, status, msg, headers⟩, buf)

section

variable (simd : Simd) {max_headers p : Nat} {b rest : List Byte}

theorem parseResponse_start (v : Version) (gap : Spaces) (h : ∃ c ∈ rest.head?, c ≠ SP) :
    parseResponse simd max_headers ⟨0, v.bytes ++ (gap.bytes ++ rest)⟩ =
      responseRest simd max_headers (digit v.minor) ⟨0 + v.bytes.length + gap.bytes.length, rest⟩ := by
  obtain ⟨tl, htl⟩ := List.head?_eq_some_iff.1 (spaces_head gap rest)
  have hne : gap.bytes ++ rest ≠ [] := by
    rw [htl]
    exact List.cons_ne_nil _ _
  have hget : Slice.get ⟨0 + v.bytes.length, gap.bytes ++ rest⟩ 0 = .ok SP := by
    rw [htl]
    rfl
  rw [parseResponse, parseHttpVersion_version v hne, ok_bind]
  simp only
  rw [hget, ok_bind, if_neg (not_not.2 rfl), skipSpaces_gap gap h, ok_bind]
  rfl

/-- A response without headers, from what its text is so far. -/
theorem completes_bareResponse (x : List Byte) (v : Version) (gap : Spaces) (k : Code) (text : Text textByte)
    (hstart : ∀ c ∈ text.bytes.head?, c = SP) (eol : Eol) (hx : x.length ≤ 15)
    (h : b ++ x = v.bytes ++ (gap.bytes ++ (k.bytes ++ (text.bytes ++ eol.bytes)))) :
    Completes Response.bytes (fun q => q.headers.lines.length ≤ max_headers) b := by
  refine ⟨x ++ [LF], ⟨v, gap, k, text, hstart, eol, emptySection⟩, ?_, Nat.zero_le _, ?_⟩
  · rw [List.length_append, List.length_singleton]
    omega
  · rw [← List.append_assoc, h]
    simp [Response.bytes, Response.startBytes, emptySection, Section.bytes, linesBytes, Eol.bytes]

theorem not_incomplete_trimMsg {w : List Byte} (hrest : ∃ c ∈ rest.head?, c ≠ SP) :
    ¬ Incomplete (trimMsg ⟨p, w ++ rest⟩ ⟨p, w⟩) := by
  cases w with
  | nil => exact not_incomplete_ok _
  | cons c w =>
    by_cases hc : c = SP
    · rw [(trimMsg_ok_iff hrest).2 ⟨fun d hd => by rw [← Option.some.inj hd, hc], rfl⟩]
      exact not_incomplete_ok _
    · have hlen : ¬ (Slice.mk p (c :: w)).length = 0 := Nat.succ_ne_zero _
      rw [trimMsg, if_neg hlen, get_cons, ok_bind, if_neg hc]
      exact not_incomplete_refused

/-- Where a response is cut behind its status code. -/
theorem responseRest_incomplete (v : Version) (gap : Spaces) (hstart : ∃ c ∈ rest.head?, c ≠ SP) {minor : Int}
    (h : Incomplete (responseRest simd max_headers minor ⟨p, rest⟩)) :
    DoomedResponse (v.bytes ++ (gap.bytes ++ rest)) ∨
      Completes Response.bytes (fun q => q.headers.lines.length ≤ max_headers) (v.bytes ++ (gap.bytes ++ rest)) := by
  unfold responseRest at h
  split_ifs at h with hshort
  · by_cases hno : ∃ k : Code, rest <+: k.bytes
    · obtain ⟨k, y, hy⟩ := hno
      have hlen := congrArg List.length hy
      rw [List.length_append, show k.bytes.length = 3 from rfl] at hlen
      refine Or.inr (completes_bareResponse (y ++ [LF]) v gap k ⟨[], by simp⟩ (by simp) .lf ?_ ?_)
      · rw [List.length_append, List.length_singleton]
        omega
      · simp only [List.append_assoc]
        rw [← List.append_assoc rest, hy]
        rfl
    · exact Or.inl (.code v gap rest hstart hshort (not_exists.1 hno))
  rcases bind_incomplete_iff.1 h with h | ⟨⟨status, s₁⟩, hcode, h⟩
  · exact absurd h not_incomplete_parseInt3
  obtain ⟨k, tl, rfl, rfl, rfl⟩ := parseInt3_ok_iff.1 hcode
  rcases bind_incomplete_iff.1 h with h | ⟨⟨msg, s₂⟩, htext, h⟩
  · obtain ⟨w, t, rfl, ht⟩ := (getTokenToEol_incomplete_iff simd).1 h
    obtain ⟨eol, heol⟩ := ht.eol
    by_cases hw : ∀ c ∈ w.bytes.head?, c = SP
    · exact Or.inr (completes_bareResponse [LF] v gap k w hw eol (by decide) (by simp [← heol]))
    · obtain ⟨c, hhead, hc⟩ := not_forall₂.1 hw
      obtain ⟨cs, hcs⟩ := List.head?_eq_some_iff.1 hhead
      refine Or.inl (.text v gap k ⟨w.bytes, by rw [hcs]; exact List.cons_ne_nil _ _, w.all⟩ t ?_ ht)
      intro d hd
      rw [← Option.some.inj ((Option.mem_def.1 hhead).symm.trans hd)]
      exact hc
  obtain ⟨w, eol, tl', rfl, rfl, rfl⟩ := (getTokenToEol_ok_iff simd).1 htext
  rcases bind_incomplete_iff.1 h with h | ⟨m, hmsg, h⟩
  · exact absurd h (not_incomplete_trimMsg (eol_head eol tl'))
  obtain ⟨hw, -⟩ := (trimMsg_ok_iff (eol_head eol tl')).1 hmsg
  rcases bind_incomplete_iff.1 h with h | ⟨⟨headers, s₃⟩, -, h⟩
  · obtain ⟨x, s, hx, hroom, hs⟩ := parseSection_incomplete simd h
    refine Or.inr ⟨x, ⟨v, gap, k, w, hw, eol, s⟩, by omega, hroom, ?_⟩
    simp only [Response.bytes, Response.startBytes, List.append_assoc, hs]
  · exact absurd h (not_incomplete_ok _)

/-- **Wherever `parse_response` runs out of bytes**, sixteen more complete the response, or there is no hope for
it. -/
theorem parseResponse_incomplete (h : Incomplete (parseResponse simd max_headers ⟨0, b⟩)) :
    DoomedResponse b ∨ Completes Response.bytes (fun q => q.headers.lines.length ≤ max_headers) b := by
  rcases bind_incomplete_iff.1 h with hcut | ⟨⟨minor, s⟩, hversion, hcut⟩
  · have hshort := parseHttpVersion_incomplete_iff.1 hcut
    by_cases hno : ∃ v : Version, b <+: v.bytes
    · obtain ⟨v, y, hy⟩ := hno
      have hlen := congrArg List.length hy
      rw [List.length_append, show v.bytes.length = 8 from rfl] at hlen
      refine Or.inr (completes_bareResponse (y ++ (oneSpace.bytes ++ (someCode.bytes ++ [LF]))) v oneSpace someCode
        ⟨[], by simp⟩ (by simp) .lf ?_ ?_)
      · simp only [List.length_append, show oneSpace.bytes.length = 1 from rfl,
          show someCode.bytes.length = 3 from rfl, List.length_singleton]
        omega
      · rw [← List.append_assoc, hy]
        rfl
    · exact Or.inl (.version b hshort (not_exists.1 hno))
  obtain ⟨v, c, tl, rfl, rfl, rfl⟩ := parseHttpVersion_ok_iff.1 hversion
  simp only [get_cons, ok_bind] at hcut
  split_ifs at hcut with hc
  · exact absurd hcut not_incomplete_refused
  obtain rfl := not_not.1 hc
  rcases bind_incomplete_iff.1 hcut with hcut | ⟨s₂, hgap, -⟩
  · obtain ⟨gap, hsplit⟩ := spaces_of ((skipSpaces_incomplete_iff SP).1 hcut)
    rw [← hsplit]
    exact Or.inr (completes_bareResponse (someCode.bytes ++ [LF]) v gap someCode ⟨[], by simp⟩ (by simp) .lf
      (by decide) (List.append_assoc _ _ _))
  · obtain ⟨gap, d, tl', hsplit, hd, rfl⟩ := skipSpaces_ok_iff.1 hgap
    have hstart : ∃ c ∈ (d :: tl').head?, c ≠ SP := ⟨d, rfl, hd⟩
    rw [hsplit] at h ⊢
    rw [parseResponse_start simd v gap hstart] at h
    exact responseRest_incomplete simd v gap hstart h

theorem DoomedResponse.incomplete (h : DoomedResponse b) : Incomplete (parseResponse simd max_headers ⟨0, b⟩) := by
  cases h with
  | version _ hshort hno => exact bind_incomplete_iff.2 (Or.inl (parseHttpVersion_incomplete_iff.2 hshort))
  | code v gap rest hstart hshort hno =>
    rw [parseResponse_start simd v gap hstart]
    exact if_pos hshort
  | text v gap k garbage t hstart ht =>
    rw [parseResponse_start simd v gap ⟨k.d₁, rfl, (digit_plain k.digit₁).1⟩]
    have hlong : ∀ q, ¬ (Slice.mk q (k.bytes ++ (garbage.bytes ++ t))).length < 4 := by
      intro q
      have hpos := List.length_pos_iff.2 garbage.nonempty
      simp only [Slice.length, List.length_append, show k.bytes.length = 3 from rfl]
      omega
    rw [responseRest, if_neg (hlong _), parseInt3_ok_iff.2 ⟨k, _, rfl, rfl, rfl⟩, ok_bind]
    refine bind_incomplete_iff.2 (Or.inl ((getTokenToEol_incomplete_iff simd).2 ?_))
    exact ⟨⟨garbage.bytes, garbage.all⟩, t, rfl, ht⟩

theorem DoomedResponse.never (h : DoomedResponse b) (x : List Byte) {out : PhrResponse} {r : Slice} :
    parseResponse simd max_headers ⟨0, b ++ x⟩ ≠ .ok (out, r) := by
  intro hread
  cases h with
  | version _ hshort hno =>
    obtain ⟨⟨minor, s⟩, hversion, -⟩ := bind_ok_iff.1 hread
    obtain ⟨v, c, tl, hsplit, -, -⟩ := parseHttpVersion_ok_iff.1 hversion
    exact hno v (List.prefix_of_prefix_length_le ⟨x, hsplit⟩ (List.prefix_append _ _) (Nat.le_of_lt_succ hshort))
  | code v gap rest hstart hshort hno =>
    rw [List.append_assoc, List.append_assoc, parseResponse_start simd v gap (start_append hstart x), responseRest]
      at hread
    split_ifs at hread
    obtain ⟨⟨status, s⟩, hcode, -⟩ := bind_ok_iff.1 hread
    obtain ⟨k, tl, hsplit, -, -⟩ := parseInt3_ok_iff.1 hcode
    exact hno k (List.prefix_of_prefix_length_le ⟨x, hsplit⟩ (List.prefix_append _ _) (Nat.le_of_lt_succ hshort))
  | text v gap k garbage t hstart ht =>
    simp only [List.append_assoc] at hread
    rw [parseResponse_start simd v gap ⟨k.d₁, rfl, (digit_plain k.digit₁).1⟩, responseRest] at hread
    split_ifs at hread
    rw [parseInt3_ok_iff.2 ⟨k, _, rfl, rfl, rfl⟩, ok_bind] at hread
    obtain ⟨⟨msg, s⟩, htext, hread⟩ := bind_ok_iff.1 hread
    obtain ⟨w, eol, tl, hsplit, rfl, rfl⟩ := (getTokenToEol_ok_iff simd).1 htext
    obtain ⟨m, hmsg, -⟩ := bind_ok_iff.1 hread
    rw [hsplit] at hmsg
    obtain ⟨hsp, -⟩ := (trimMsg_ok_iff (eol_head eol tl)).1 hmsg
    obtain ⟨c, cs, hgarbage, htextByte, -⟩ := Word.exists_cons garbage
    rw [hgarbage] at hsplit hstart
    cases hw : w.bytes with
    | nil =>
      obtain ⟨d, ds, heol, hd⟩ := Eol.exists_cons eol tl
      rw [hw, List.nil_append, heol] at hsplit
      obtain ⟨rfl, -⟩ := List.cons.inj hsplit
      rcases hd with rfl | rfl
      · exact (textByte_plain htextByte).1 rfl
      · exact (textByte_plain htextByte).2 rfl
    | cons d ds =>
      rw [hw] at hsplit hsp
      obtain ⟨rfl, -⟩ := List.cons.inj hsplit
      exact hstart c rfl (hsp c rfl)

end

/-! ## Waiting -/

/-- What the answer `-2` says of a buffer: it is the strict beginning of a message there is room for, and sixteen
bytes make one of it, or it is `Doomed`, and no bytes do. -/
structure Waits {α μ : Type} (call : List Byte → Except Fault (Int × Option α)) (bytes : μ → List Byte)
    (Room : μ → Prop) (Doomed : List Byte → Prop) : Prop where
  iff : ∀ b, call b = .ok (-2, none) ↔ (∃ q, Room q ∧ b <+: bytes q ∧ b ≠ bytes q) ∨ Doomed b
  short : ∀ b, call b = .ok (-2, none) → ¬ Doomed b → Completes bytes Room b
  never : ∀ b, Doomed b → ∀ x n out, call (b ++ x) ≠ .ok (n, some out)

section

variable {α μ : Type} {parse : Slice → Except Stop (α × Slice)} {bytes : μ → List Byte} {Room : μ → Prop}
  {Doomed : List Byte → Prop} {b : List Byte}

theorem phrParse_incomplete_iff : phrParse parse b 0 = .ok (-2, none) ↔ Incomplete (parse ⟨0, b⟩) := by
  simp only [phrParse, ne_eq, not_true_eq_false, if_false]
  rcases hparse : parse ⟨0, b⟩ with (r | f) | ⟨out, s⟩
  · constructor
    · intro h
      rw [(Prod.mk.inj (Except.ok.inj h)).1]
      rfl
    · intro h
      rw [Stop.ret.inj (Except.error.inj h)]
  · exact iff_of_false (by rintro ⟨⟩) (by rintro ⟨⟩)
  · refine iff_of_false (fun h => ?_) (not_incomplete_ok _)
    cases (Prod.mk.inj (Except.ok.inj h)).2

theorem phrParse_some {n : Int} {out : α} (h : phrParse parse b 0 = .ok (n, some out)) :
    ∃ r, parse ⟨0, b⟩ = .ok (out, r) := by
  simp only [phrParse, ne_eq, not_true_eq_false, if_false] at h
  rcases hparse : parse ⟨0, b⟩ with (r | f) | ⟨out', s⟩
  · rw [hparse] at h
    cases (Prod.mk.inj (Except.ok.inj h)).2
  · rw [hparse] at h
    cases h
  · rw [hparse] at h
    exact ⟨s, by rw [Option.some.inj (Prod.mk.inj (Except.ok.inj h)).2]⟩

/-- A parser waits for the messages it accepts, where running out of bytes has the two reasons only. -/
theorem Parser.waits (h : Parser parse)
    (hcomplete : ∀ q, Room q → ∃ out, parse ⟨0, bytes q⟩ = .ok (out, ⟨(bytes q).length, []⟩))
    (hincomplete : ∀ b, Incomplete (parse ⟨0, b⟩) → Doomed b ∨ Completes bytes Room b)
    (hdoomed : ∀ b, Doomed b → Incomplete (parse ⟨0, b⟩))
    (hnever : ∀ b x out r, Doomed b → parse ⟨0, b ++ x⟩ ≠ .ok (out, r)) :
    Waits (fun b => phrParse parse b 0) bytes Room Doomed where
  iff b := by
    rw [phrParse_incomplete_iff]
    constructor
    · intro hb
      rcases hincomplete b hb with hd | ⟨x, q, -, hroom, hx⟩
      · exact Or.inr hd
      · refine Or.inl ⟨q, hroom, ⟨x, hx⟩, ?_⟩
        rintro rfl
        obtain ⟨out, hout⟩ := hcomplete q hroom
        rw [hout] at hb
        exact not_incomplete_ok _ hb
    · rintro (⟨q, hroom, hfront, hne⟩ | hd)
      · obtain ⟨out, hout⟩ := hcomplete q hroom
        exact h.part_short hout hfront (lt_of_le_of_ne hfront.length_le fun hlen => hne (hfront.eq_of_length hlen))
      · exact hdoomed b hd
  short b hb hno := (hincomplete b (phrParse_incomplete_iff.1 hb)).resolve_left hno
  never b hd x n out hcall := by
    obtain ⟨r, hread⟩ := phrParse_some hcall
    exact hnever b x out r hd hread

end

/-- **What picohttpparser waits for**: the strict beginnings of the messages there is room for, which sixteen bytes
complete, and besides requests and responses that can become none any more. -/
theorem phr_viable (simd : Simd) (max_headers : Nat) :
    Waits (fun b => phrParseRequest simd max_headers b 0) Request.bytes (fun q => q.headers.lines.length ≤ max_headers)
      DoomedRequest ∧
    Waits (fun b => phrParseResponse simd max_headers b 0) Response.bytes
      (fun q => q.headers.lines.length ≤ max_headers) DoomedResponse ∧
    Waits (fun b => phrParseHeaders simd max_headers b 0) Section.bytes (fun s => s.lines.length ≤ max_headers)
      (fun _ => False) := by
  refine ⟨?_, ?_, ?_⟩
  · refine (requestParser simd max_headers).waits ?_ (fun b => parseRequest_incomplete simd)
      (fun b hd => hd.incomplete simd) fun b x out r hd => hd.never simd x
    intro q hroom
    exact ⟨q.out, (parseRequest_ok_iff simd).2 ⟨q, [], hroom, (List.append_nil _).symm, rfl, rfl⟩⟩
  · refine (responseParser simd max_headers).waits ?_ (fun b => parseResponse_incomplete simd)
      (fun b hd => hd.incomplete simd) fun b x out r hd => hd.never simd x
    intro q hroom
    exact ⟨q.out, (parseResponse_ok_iff simd).2 ⟨q, [], hroom, (List.append_nil _).symm, rfl, rfl⟩⟩
  · refine (headersParser simd max_headers).waits ?_ ?_ (fun b hd => hd.elim) fun b x out r hd => hd.elim
    · intro s hroom
      have hptr : Slice.mk s.bytes.length [] = ⟨0 + s.bytes.length, []⟩ := by rw [Nat.zero_add]
      exact ⟨linesHeaders 0 s.lines,
        (parseHeaders_section_iff simd).2 ⟨s, [], hroom, (List.append_nil _).symm, rfl, hptr⟩⟩
    · intro b hb
      obtain ⟨x, s, hx, hroom, hbytes⟩ := parseSection_incomplete simd hb
      exact Or.inr ⟨x, s, by omega, hroom, hbytes⟩

/-- A version that is none is not looked at when the message is over. -/
example : phrParseRequest .unrolled 4 (ascii "GET / x\r\n\r\n") 0 = .ok (-2, none) := rfl

end Httparsed.Pico
