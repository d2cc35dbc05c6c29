import Httparsed.PicoReads

/-!
# picohttpparser accepts exactly its grammar

`parse_request` and `parse_response` return a pointer exactly when the buffer begins with a message of the grammar
whose lines there is room for, and then it points behind the message and the out-parameters hold what is written
there (`parseRequest_ok_iff`, `parseResponse_ok_iff`).
-/

namespace Httparsed.Pico

open Grammar

/-! ## The header section -/

section

variable (simd : Simd) {max_headers fuel p : Nat} {bytes : List Byte} {r : Slice} {headers out : List PhrHeader}

theorem parseHeaders_close (eol : Eol) (tl : List Byte) :
    parseHeaders simd max_headers (fuel + 1) headers ⟨p, eol.bytes ++ tl⟩ =
      .ok (headers, ⟨p + eol.bytes.length, tl⟩) := by
  obtain ⟨c, cs, heol, -⟩ := Eol.exists_cons eol tl
  have hline := (newLine_some_iff (p := p)).2 ⟨eol, tl, rfl, rfl⟩
  rw [heol] at hline ⊢
  rw [parseHeaders, checkEof_cons, ok_bind, hline, ok_bind]

theorem parseHeaders_more (l : Line) (hopens : headers = [] → l.content.isNamed = true)
    (hroom : headers.length ≠ max_headers) (tl : List Byte) :
    parseHeaders simd max_headers (fuel + 1) headers ⟨p, l.bytes ++ tl⟩ =
      parseHeaders simd max_headers fuel (headers ++ [l.header p]) ⟨p + l.bytes.length, tl⟩ := by
  obtain ⟨c, cs, hl, hCR, hLF⟩ := l.first tl
  have hnone := (newLine_none_iff (p := p)).2 ⟨c, cs, hl, hCR, hLF⟩
  have heof : checkEof ⟨p, l.bytes ++ tl⟩ = .ok ⟨⟩ := by
    rw [hl]
    rfl
  rw [parseHeaders, heof, ok_bind, hnone, ok_bind]
  simp only
  rw [if_neg hroom, parseHeader_line simd l fun h => hopens (List.length_eq_zero_iff.1 h)]
  rfl

/-- **The header section**: lines of the grammar, as many as there is room for. -/
theorem parseHeaders_ok_iff (hfuel : fuel = max_headers + 1 - headers.length) (hle : headers.length ≤ max_headers) :
    parseHeaders simd max_headers fuel headers ⟨p, bytes⟩ = .ok (out, r) ↔
      ∃ (ls : List Line) (eol : Eol) (tl : List Byte), (headers = [] → ∀ l ∈ ls.head?, l.content.isNamed = true) ∧
        headers.length + ls.length ≤ max_headers ∧ bytes = linesBytes ls ++ (eol.bytes ++ tl) ∧
        out = headers ++ linesHeaders p ls ∧ r = ⟨p + (linesBytes ls ++ eol.bytes).length, tl⟩ := by
  constructor
  · intro h
    induction fuel generalizing headers p bytes with
    | zero => cases h
    | succ fuel ih =>
      rw [parseHeaders] at h
      obtain ⟨-, heof, h⟩ := bind_ok_iff.1 h
      obtain ⟨o, ho, h⟩ := bind_ok_iff.1 h
      cases o with
      | some s =>
        obtain ⟨eol, tl, rfl, rfl⟩ := newLine_some_iff.1 ho
        obtain ⟨rfl, rfl⟩ := Prod.mk.inj (Except.ok.inj h)
        exact ⟨[], eol, tl, fun _ _ hl => (nomatch hl), hle, rfl, (List.append_nil _).symm, rfl⟩
      | none =>
        simp only at h
        split_ifs at h with hroom
        obtain ⟨⟨header, s⟩, hline, h⟩ := bind_ok_iff.1 h
        obtain ⟨l, tl, hopens, rfl, rfl, rfl⟩ := parseHeader_reads simd hline
        have hlen : (headers ++ [l.header p]).length = headers.length + 1 := by simp
        have hrest : parseHeaders simd max_headers fuel (headers ++ [l.header p]) ⟨p + l.bytes.length, tl⟩ =
            .ok (out, r) := h
        obtain ⟨ls, eol, tl', -, hle', rfl, rfl, rfl⟩ := ih (by omega) (by omega) hrest
        refine ⟨l :: ls, eol, tl', ?_, by rw [List.length_cons]; omega, ?_, ?_, ?_⟩
        · rintro rfl l' hl'
          obtain rfl := Option.some.inj hl'
          exact hopens rfl
        · rw [linesBytes_cons, List.append_assoc]
        · rw [List.append_assoc]
          rfl
        · simp [Nat.add_assoc]
  · rintro ⟨ls, eol, tl, hopens, hroom, rfl, rfl, rfl⟩
    induction ls generalizing fuel headers p with
    | nil =>
      obtain ⟨k, rfl⟩ : ∃ k, fuel = k + 1 := ⟨fuel - 1, by omega⟩
      rw [linesBytes, List.flatMap_nil, List.nil_append, parseHeaders_close, linesHeaders, List.append_nil,
        List.nil_append]
    | cons l ls ih =>
      rw [List.length_cons] at hroom
      obtain ⟨k, rfl⟩ : ∃ k, fuel = k + 1 := ⟨fuel - 1, by omega⟩
      have hlen : (headers ++ [l.header p]).length = headers.length + 1 := by simp
      have hrest := @ih k (p + l.bytes.length) (headers ++ [l.header p]) (by omega) (by omega)
        (fun h => absurd h (by simp)) (by omega)
      rw [linesBytes_cons, List.append_assoc,
        parseHeaders_more simd l (fun h => hopens h l rfl) (by omega)]
      refine hrest.trans ?_
      simp [linesHeaders, Nat.add_assoc]

end

/-- The header section of a message, for which nothing is stored yet. -/
theorem parseHeaders_section_iff (simd : Simd) {max_headers p : Nat} {bytes : List Byte} {r : Slice}
    {out : List PhrHeader} :
    parseHeaders simd max_headers (max_headers + 1) [] ⟨p, bytes⟩ = .ok (out, r) ↔
      ∃ (s : Section) (tl : List Byte), s.lines.length ≤ max_headers ∧ bytes = s.bytes ++ tl ∧
        out = linesHeaders p s.lines ∧ r = ⟨p + s.bytes.length, tl⟩ := by
  refine (parseHeaders_ok_iff simd rfl (show ([] : List PhrHeader).length ≤ max_headers from Nat.zero_le _)).trans ?_
  constructor
  · rintro ⟨ls, eol, tl, hopens, hle, rfl, rfl, rfl⟩
    exact ⟨⟨ls, hopens rfl, eol⟩, tl, by simpa using hle, (List.append_assoc _ _ _).symm, rfl, rfl⟩
  · rintro ⟨⟨ls, hopens, eol⟩, tl, hle, rfl, rfl, rfl⟩
    exact ⟨ls, eol, tl, fun _ => hopens, by simpa using hle, List.append_assoc _ _ _, rfl, rfl⟩

/-! ## Requests -/

section

variable (simd : Simd) {max_headers : Nat} {bytes : List Byte} {r : Slice}

/-- The empty line in front of a request. -/
theorem lead_cases {o : Option Slice} (h : newLine ⟨0, bytes⟩ = .ok o) :
    ∃ (lead : Option Eol) (rest : List Byte), bytes = leadBytes lead ++ rest ∧
      o.getD ⟨0, bytes⟩ = ⟨(leadBytes lead).length, rest⟩ := by
  cases o with
  | none => exact ⟨none, bytes, rfl, rfl⟩
  | some s =>
    obtain ⟨eol, tl, rfl, rfl⟩ := newLine_some_iff.1 h
    exact ⟨some eol, tl, rfl, by simp [leadBytes]⟩

theorem lead_complete (lead : Option Eol) {rest : List Byte} (h : ∃ c ∈ rest.head?, c ≠ CR ∧ c ≠ LF) :
    ∃ o, checkEof ⟨0, leadBytes lead ++ rest⟩ = .ok ⟨⟩ ∧ newLine ⟨0, leadBytes lead ++ rest⟩ = .ok o ∧
      o.getD ⟨0, leadBytes lead ++ rest⟩ = ⟨(leadBytes lead).length, rest⟩ := by
  obtain ⟨c, hhead, hc⟩ := h
  obtain ⟨cs, rfl⟩ := List.head?_eq_some_iff.1 hhead
  cases lead with
  | none => exact ⟨none, rfl, newLine_none_iff.2 ⟨c, cs, rfl, hc⟩, rfl⟩
  | some eol =>
    obtain ⟨d, ds, heol, -⟩ := Eol.exists_cons eol (c :: cs)
    refine ⟨some ⟨0 + eol.bytes.length, c :: cs⟩, ?_, newLine_some_iff.2 ⟨eol, _, rfl, rfl⟩, by simp [leadBytes]⟩
    rw [leadBytes, heol]
    rfl

/-- The first byte stays the first when more bytes come. -/
theorem start_append {w : List Byte} (h : ∃ c ∈ w.head?, c ≠ SP) (x : List Byte) :
    ∃ c ∈ (w ++ x).head?, c ≠ SP := by
  obtain ⟨c, hhead, hc⟩ := h
  obtain ⟨cs, rfl⟩ := List.head?_eq_some_iff.1 hhead
  exact ⟨c, rfl, hc⟩

theorem spaces_head (gap : Spaces) (rest : List Byte) : (gap.bytes ++ rest).head? = some SP := by
  obtain ⟨c, cs, hgap, hc, -⟩ := Word.exists_cons gap
  rw [hgap]
  exact congrArg some (by simpa using hc)

theorem word_head {P : Byte → Bool} (w : Word P) (rest : List Byte) : ∃ c ∈ (w.bytes ++ rest).head?, P c = true := by
  obtain ⟨c, cs, hw, hc, -⟩ := Word.exists_cons w
  exact ⟨c, by rw [hw]; rfl, hc⟩

theorem parseToken_word {p : Nat} (w : Word isToken) {rest : List Byte} (h : rest.head? = some SP) :
    parseToken simd SP ⟨p, w.bytes ++ rest⟩ = .ok (⟨p, w.bytes⟩, ⟨p + w.bytes.length, rest⟩) := by
  obtain ⟨tl, rfl⟩ := List.head?_eq_some_iff.1 h
  exact (parseToken_ok_iff simd (by decide)).2 ⟨⟨w.bytes, w.all⟩, tl, rfl, rfl, rfl⟩

theorem advanceToken_word {p : Nat} (w : Word uriByte) {rest : List Byte} (h : rest.head? = some SP) :
    advanceToken simd ⟨p, w.bytes ++ rest⟩ = .ok (⟨p, w.bytes⟩, ⟨p + w.bytes.length, rest⟩) := by
  obtain ⟨tl, rfl⟩ := List.head?_eq_some_iff.1 h
  exact (advanceToken_ok_iff simd).2 ⟨⟨w.bytes, w.all⟩, tl, rfl, rfl, rfl⟩

theorem skipSpaces_gap {p : Nat} (gap : Spaces) {rest : List Byte} (h : ∃ c ∈ rest.head?, c ≠ SP) :
    skipSpaces p (gap.bytes ++ rest) = .ok ⟨p + gap.bytes.length, rest⟩ := by
  obtain ⟨c, hhead, hc⟩ := h
  obtain ⟨tl, rfl⟩ := List.head?_eq_some_iff.1 hhead
  obtain ⟨gs, hgap⟩ := List.head?_eq_some_iff.1 (spaces_head gap (c :: tl))
  rw [hgap]
  exact skipSpaces_ok_iff.2 ⟨gap, c, tl, hgap.symm, hc, rfl⟩

theorem parseHttpVersion_version {p : Nat} (version : Version) {rest : List Byte} (h : rest ≠ []) :
    parseHttpVersion ⟨p, version.bytes ++ rest⟩ = .ok (digit version.minor, ⟨p + version.bytes.length, rest⟩) := by
  obtain ⟨c, tl, rfl⟩ := List.exists_cons_of_ne_nil h
  exact parseHttpVersion_ok_iff.2 ⟨version, c, tl, rfl, rfl, rfl⟩

theorem text_word {P : Byte → Bool} {w : Text P} {p : Nat} (h : ¬ (Slice.mk p w.bytes).length = 0) :
    ∃ v : Word P, v.bytes = w.bytes :=
  ⟨⟨w.bytes, fun hw => h (List.length_eq_zero_iff.2 hw), w.all⟩, rfl⟩

/-- What is accepted is a request of the grammar. -/
theorem parseRequest_reads {out : PhrRequest} (h : parseRequest simd max_headers ⟨0, bytes⟩ = .ok (out, r)) :
    ∃ (q : Request) (tl : List Byte), q.headers.lines.length ≤ max_headers ∧ bytes = q.bytes ++ tl ∧ out = q.out ∧
      r = ⟨q.bytes.length, tl⟩ := by
  obtain ⟨-, -, h⟩ := bind_ok_iff.1 h
  obtain ⟨o, ho, h⟩ := bind_ok_iff.1 h
  obtain ⟨lead, rest, rfl, hlead⟩ := lead_cases ho
  rw [hlead] at h
  obtain ⟨⟨method, s₁⟩, hmethod, h⟩ := bind_ok_iff.1 h
  obtain ⟨m, tl₁, rfl, rfl, rfl⟩ := (parseToken_ok_iff simd (by decide)).1 hmethod
  obtain ⟨s₂, hgap₁, h⟩ := bind_ok_iff.1 h
  obtain ⟨gap₁, c, tl₂, hsplit₁, -, rfl⟩ := skipSpaces_ok_iff.1 hgap₁
  obtain ⟨⟨path, s₃⟩, hpath, h⟩ := bind_ok_iff.1 h
  obtain ⟨u, tl₃, hsplit₂, rfl, rfl⟩ := (advanceToken_ok_iff simd).1 hpath
  obtain ⟨s₄, hgap₂, h⟩ := bind_ok_iff.1 h
  obtain ⟨gap₂, d, tl₄, hsplit₃, -, rfl⟩ := skipSpaces_ok_iff.1 hgap₂
  simp only at h
  split_ifs at h with hempty
  obtain ⟨m, hm⟩ := text_word fun h0 => hempty (Or.inl h0)
  obtain ⟨u, hu⟩ := text_word fun h0 => hempty (Or.inr h0)
  obtain ⟨⟨v, s₅⟩, hversion, h⟩ := bind_ok_iff.1 h
  obtain ⟨ver, e, tl₅, hsplit₄, rfl, rfl⟩ := parseHttpVersion_ok_iff.1 hversion
  obtain ⟨o, ho, h⟩ := bind_ok_iff.1 h
  cases o with
  | none => cases h
  | some s₆ =>
    obtain ⟨eol, tl₆, hsplit₅, rfl⟩ := newLine_some_iff.1 ho
    obtain ⟨⟨headers, s₇⟩, hheaders, h⟩ := bind_ok_iff.1 h
    obtain ⟨sec, tl, hle, rfl, rfl, rfl⟩ := (parseHeaders_section_iff simd).1 hheaders
    obtain ⟨rfl, rfl⟩ := Prod.mk.inj (Except.ok.inj h)
    refine ⟨⟨lead, m, gap₁, u, gap₂, ver, eol, sec⟩, tl, hle, ?_, ?_, ?_⟩
    · rw [hsplit₁, hsplit₂, hsplit₃, hsplit₄, hsplit₅]
      simp [Request.bytes, Request.startBytes, hm, hu]
    · simp [Request.out, Request.pathOffset, Request.startBytes, hm, hu, Nat.add_assoc]
    · simp [Request.bytes, Request.startBytes, hm, hu, Nat.add_assoc]

/-- A request of the grammar is accepted, if there is room for its lines. -/
theorem parseRequest_complete (q : Request) (hroom : q.headers.lines.length ≤ max_headers) (tl : List Byte) :
    parseRequest simd max_headers ⟨0, q.bytes ++ tl⟩ = .ok (q.out, ⟨q.bytes.length, tl⟩) := by
  obtain ⟨lead, method, gap₁, path, gap₂, version, eol, sec⟩ := q
  have hbytes : (Request.mk lead method gap₁ path gap₂ version eol sec).bytes ++ tl =
      leadBytes lead ++ (method.bytes ++ (gap₁.bytes ++ (path.bytes ++ (gap₂.bytes ++ (version.bytes ++
        (eol.bytes ++ (sec.bytes ++ tl))))))) := by
    simp [Request.bytes, Request.startBytes]
  obtain ⟨mc, hmc, hmethod⟩ := word_head method (gap₁.bytes ++ (path.bytes ++ (gap₂.bytes ++ (version.bytes ++
    (eol.bytes ++ (sec.bytes ++ tl))))))
  obtain ⟨uc, huc, hpath⟩ := word_head path (gap₂.bytes ++ (version.bytes ++ (eol.bytes ++ (sec.bytes ++ tl))))
  have hrest : eol.bytes ++ (sec.bytes ++ tl) ≠ [] := by
    obtain ⟨c, cs, heol, -⟩ := Eol.exists_cons eol (sec.bytes ++ tl)
    rw [heol]
    exact List.cons_ne_nil _ _
  obtain ⟨o, heof, ho, hlead⟩ :=
    lead_complete lead ⟨mc, hmc, (isToken_plain mc hmethod).1, (isToken_plain mc hmethod).2.1⟩
  have hlen : ¬ ((Slice.mk (leadBytes lead).length method.bytes).length = 0 ∨
      (Slice.mk ((leadBytes lead).length + method.bytes.length + gap₁.bytes.length) path.bytes).length = 0) := by
    rintro (h | h)
    · exact method.nonempty (List.length_eq_zero_iff.1 h)
    · exact path.nonempty (List.length_eq_zero_iff.1 h)
  rw [hbytes, parseRequest, heof, ok_bind, ho, ok_bind, hlead, parseToken_word simd method (spaces_head gap₁ _),
    ok_bind]
  simp only
  rw [skipSpaces_gap gap₁ ⟨uc, huc, (uriByte_plain hpath).1⟩, ok_bind, advanceToken_word simd path (spaces_head gap₂ _),
    ok_bind]
  simp only
  rw [skipSpaces_gap gap₂ ⟨0x48, rfl, by decide⟩, ok_bind, if_neg hlen, parseHttpVersion_version version hrest, ok_bind]
  simp only
  rw [newLine_some_iff.2 ⟨eol, _, rfl, rfl⟩, ok_bind]
  simp only
  rw [(parseHeaders_section_iff simd).2 ⟨sec, tl, hroom, rfl, rfl, rfl⟩, ok_bind]
  simp [Request.out, Request.pathOffset, Request.bytes, Request.startBytes, Nat.add_assoc]

/-- **`parse_request` accepts exactly its grammar**, with no more lines than there is room for. -/
theorem parseRequest_ok_iff {out : PhrRequest} :
    parseRequest simd max_headers ⟨0, bytes⟩ = .ok (out, r) ↔
      ∃ (q : Request) (tl : List Byte), q.headers.lines.length ≤ max_headers ∧ bytes = q.bytes ++ tl ∧ out = q.out ∧
        r = ⟨q.bytes.length, tl⟩ := by
  constructor
  · exact parseRequest_reads simd
  · rintro ⟨q, tl, hroom, rfl, rfl, rfl⟩
    exact parseRequest_complete simd q hroom tl

end

/-! ## Responses -/

/-- The counted loop over the SPs in front of a message ends at its line end at the latest. -/
theorem stripMsg_eq {p : Nat} {w : List Byte} {c : Byte} (hc : c ≠ SP) (cs : List Byte) :
    stripMsg p (SP :: (w ++ c :: cs)) (w.length + 1) = .ok (Slice.stripLeading (· == SP) ⟨p, SP :: w⟩) := by
  induction w generalizing p with
  | nil =>
    rw [List.nil_append, stripMsg, sizeSub_ok (Nat.le_add_left 1 _), ok_bind, if_neg hc]
    rfl
  | cons d w ih =>
    rw [List.cons_append, stripMsg, sizeSub_ok (Nat.le_add_left 1 _), ok_bind, List.length_cons, Nat.add_sub_cancel]
    by_cases hd : d = SP
    · rw [if_pos hd, hd, ih]
      simp [Slice.stripLeading, Nat.add_assoc, Nat.add_comm 1]
    · rw [if_neg hd, ← List.cons_append, ← List.length_cons, List.take_left' rfl]
      simp [Slice.stripLeading, hd]

theorem trimMsg_ok_iff {p : Nat} {w rest : List Byte} (hrest : ∃ c ∈ rest.head?, c ≠ SP) {m : Slice} :
    trimMsg ⟨p, w ++ rest⟩ ⟨p, w⟩ = .ok m ↔
      (∀ c ∈ w.head?, c = SP) ∧ m = Slice.stripLeading (· == SP) ⟨p, w⟩ := by
  obtain ⟨c, hhead, hc⟩ := hrest
  obtain ⟨cs, rfl⟩ := List.head?_eq_some_iff.1 hhead
  cases w with
  | nil =>
    constructor
    · intro h
      exact ⟨by simp, (Except.ok.inj h).symm⟩
    · rintro ⟨-, rfl⟩
      rfl
  | cons d w =>
    have hlen : ¬ (Slice.mk p (d :: w)).length = 0 := Nat.succ_ne_zero _
    rw [trimMsg, if_neg hlen, get_cons, ok_bind]
    by_cases hd : d = SP
    · have hstrip := stripMsg_eq (p := p) (w := w) hc cs
      subst hd
      rw [if_pos rfl, List.cons_append, Slice.length, List.length_cons, hstrip, Except.ok.injEq, eq_comm]
      exact (and_iff_right fun e he => (Option.some.inj he).symm).symm
    · rw [if_neg hd]
      constructor
      · intro h
        cases h
      · rintro ⟨hall, -⟩
        exact absurd (hall d rfl) hd

section

variable (simd : Simd) {max_headers : Nat} {bytes : List Byte} {r : Slice}

theorem eol_head (eol : Eol) (rest : List Byte) : ∃ c ∈ (eol.bytes ++ rest).head?, c ≠ SP := by
  obtain ⟨c, cs, heol, hc⟩ := Eol.exists_cons eol rest
  refine ⟨c, by rw [heol]; rfl, ?_⟩
  rcases hc with rfl | rfl <;> decide

/-- What is accepted is a response of the grammar. -/
theorem parseResponse_reads {out : PhrResponse} (h : parseResponse simd max_headers ⟨0, bytes⟩ = .ok (out, r)) :
    ∃ (q : Response) (tl : List Byte), q.headers.lines.length ≤ max_headers ∧ bytes = q.bytes ++ tl ∧ out = q.out ∧
      r = ⟨q.bytes.length, tl⟩ := by
  obtain ⟨⟨v, s₁⟩, hversion, h⟩ := bind_ok_iff.1 h
  obtain ⟨ver, c, tl₁, rfl, rfl, rfl⟩ := parseHttpVersion_ok_iff.1 hversion
  simp only [get_cons, ok_bind] at h
  split_ifs at h with hc
  obtain rfl := not_not.1 hc
  obtain ⟨s₂, hgap, h⟩ := bind_ok_iff.1 h
  obtain ⟨gap, d, tl₂, hsplit₁, -, rfl⟩ := skipSpaces_ok_iff.1 hgap
  split_ifs at h
  obtain ⟨⟨status, s₃⟩, hcode, h⟩ := bind_ok_iff.1 h
  obtain ⟨code, tl₃, hsplit₂, rfl, rfl⟩ := parseInt3_ok_iff.1 hcode
  obtain ⟨⟨msg, s₄⟩, htext, h⟩ := bind_ok_iff.1 h
  obtain ⟨w, eol, tl₄, rfl, rfl, rfl⟩ := (getTokenToEol_ok_iff simd).1 htext
  obtain ⟨m, hmsg, h⟩ := bind_ok_iff.1 h
  obtain ⟨hstart, rfl⟩ := (trimMsg_ok_iff (eol_head eol tl₄)).1 hmsg
  obtain ⟨⟨headers, s₅⟩, hheaders, h⟩ := bind_ok_iff.1 h
  obtain ⟨sec, tl, hle, rfl, rfl, rfl⟩ := (parseHeaders_section_iff simd).1 hheaders
  obtain ⟨rfl, rfl⟩ := Prod.mk.inj (Except.ok.inj h)
  have hthree : code.bytes.length = 3 := rfl
  refine ⟨⟨ver, gap, code, w, hstart, eol, sec⟩, tl, hle, ?_, ?_, ?_⟩
  · rw [hsplit₁, hsplit₂]
    simp [Response.bytes, Response.startBytes]
  · simp [Response.out, Response.textOffset, Response.startBytes, hthree, Nat.add_assoc]
  · simp [Response.bytes, Response.startBytes, hthree, Nat.add_assoc]

/-- A response of the grammar is accepted, if there is room for its lines. -/
theorem parseResponse_complete (q : Response) (hroom : q.headers.lines.length ≤ max_headers) (tl : List Byte) :
    parseResponse simd max_headers ⟨0, q.bytes ++ tl⟩ = .ok (q.out, ⟨q.bytes.length, tl⟩) := by
  obtain ⟨version, gap, code, text, text_start, eol, sec⟩ := q
  have hbytes : (Response.mk version gap code text text_start eol sec).bytes ++ tl =
      version.bytes ++ (gap.bytes ++ (code.bytes ++ (text.bytes ++ (eol.bytes ++ (sec.bytes ++ tl))))) := by
    simp [Response.bytes, Response.startBytes]
  have hthree : code.bytes.length = 3 := rfl
  obtain ⟨gs, hgap⟩ := List.head?_eq_some_iff.1
    (spaces_head gap (code.bytes ++ (text.bytes ++ (eol.bytes ++ (sec.bytes ++ tl)))))
  have hget : ∀ p, Slice.get ⟨p, gap.bytes ++ (code.bytes ++ (text.bytes ++ (eol.bytes ++ (sec.bytes ++ tl))))⟩ 0 =
      .ok SP := by
    intro p
    rw [hgap]
    rfl
  have hne : gap.bytes ++ (code.bytes ++ (text.bytes ++ (eol.bytes ++ (sec.bytes ++ tl)))) ≠ [] := by
    rw [hgap]
    exact List.cons_ne_nil _ _
  have hdigit : ∃ c ∈ (code.bytes ++ (text.bytes ++ (eol.bytes ++ (sec.bytes ++ tl)))).head?, c ≠ SP :=
    ⟨code.d₁, rfl, (digit_plain code.digit₁).1⟩
  have hfour : ∀ p, ¬ (Slice.mk p (code.bytes ++ (text.bytes ++ (eol.bytes ++ (sec.bytes ++ tl))))).length < 4 := by
    intro p
    obtain ⟨c, cs, heol, -⟩ := Eol.exists_cons eol (sec.bytes ++ tl)
    simp only [Slice.length, List.length_append, heol, hthree, List.length_cons]
    omega
  rw [hbytes, parseResponse, parseHttpVersion_version version hne, ok_bind]
  simp only
  rw [hget, ok_bind, if_neg (not_not.2 rfl), skipSpaces_gap gap hdigit, ok_bind, if_neg (hfour _),
    parseInt3_ok_iff.2 ⟨code, _, rfl, rfl, rfl⟩, ok_bind]
  simp only
  rw [(getTokenToEol_ok_iff simd).2 ⟨text, eol, _, rfl, rfl, rfl⟩, ok_bind]
  simp only
  rw [(trimMsg_ok_iff (eol_head eol _)).2 ⟨text_start, rfl⟩, ok_bind,
    (parseHeaders_section_iff simd).2 ⟨sec, tl, hroom, rfl, rfl, rfl⟩, ok_bind]
  simp [Response.out, Response.textOffset, Response.bytes, Response.startBytes, hthree, Nat.add_assoc]

/-- **`parse_response` accepts exactly its grammar**, with no more lines than there is room for. -/
theorem parseResponse_ok_iff {out : PhrResponse} :
    parseResponse simd max_headers ⟨0, bytes⟩ = .ok (out, r) ↔
      ∃ (q : Response) (tl : List Byte), q.headers.lines.length ≤ max_headers ∧ bytes = q.bytes ++ tl ∧ out = q.out ∧
        r = ⟨q.bytes.length, tl⟩ := by
  constructor
  · exact parseResponse_reads simd
  · rintro ⟨q, tl, hroom, rfl, rfl, rfl⟩
    exact parseResponse_complete simd q hroom tl

end

end Httparsed.Pico
