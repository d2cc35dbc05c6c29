import Httparsed.PicoAccept

/-!
# picohttpparser reads no byte outside its buffer

`Quiet`: the only way out of a function but its result is an early return of `-1` or `-2`. Every function is quiet
where its callers call it, in either build, so that no pointer leaves the buffer and no counter wraps
(`phr_safe`). With `last_len` this needs that it is no more than the length of the buffer and three bytes.
-/

namespace Httparsed.Pico

open Grammar

/-- No fault, and no code but `-1` and `-2`. -/
def Quiet {α : Type} (x : Except Stop α) : Prop := ∀ e, x = .error e → e = .ret (-1) ∨ e = .ret (-2)

namespace Quiet

variable {α β : Type}

theorem ok (a : α) : Quiet (.ok a : Except Stop α) := fun _ h => (nomatch h)

theorem refused : Quiet (.error (.ret (-1)) : Except Stop α) := fun _ h => Or.inl (Except.error.inj h).symm

theorem incomplete : Quiet (.error (.ret (-2)) : Except Stop α) := fun _ h => Or.inr (Except.error.inj h).symm

theorem bind {x : Except Stop α} {f : α → Except Stop β} (hx : Quiet x) (hf : ∀ a, x = .ok a → Quiet (f a)) :
    Quiet (x >>= f) := by
  cases x with
  | error e => exact fun e' h => hx e' (congrArg Except.error (Except.error.inj h))
  | ok a => exact hf a rfl

theorem ite {c : Prop} [Decidable c] {x y : Except Stop α} (hx : c → Quiet x) (hy : ¬ c → Quiet y) :
    Quiet (if c then x else y) := by
  split_ifs with h
  · exact hx h
  · exact hy h

end Quiet

section

variable {p : Nat} {bytes : List Byte}

theorem checkEof_quiet (buf : Slice) : Quiet (checkEof buf) := Quiet.ite (fun _ => Quiet.incomplete) fun _ => Quiet.ok _

theorem expectChar_quiet (ch : Byte) (buf : Slice) : Quiet (expectChar ch buf) := by
  obtain ⟨p, bytes⟩ := buf
  cases bytes with
  | nil => exact Quiet.incomplete
  | cons c cs =>
    rw [expectChar_cons]
    exact Quiet.ite (fun _ => Quiet.refused) fun _ => Quiet.ok _

theorem newLine_quiet (h : bytes ≠ []) : Quiet (newLine ⟨p, bytes⟩) := by
  obtain ⟨c, cs, rfl⟩ := List.exists_cons_of_ne_nil h
  rw [newLine, get_cons, ok_bind, sliceFrom_cons]
  refine Quiet.ite (fun _ => ?_) fun _ => Quiet.ite (fun _ => Quiet.ok _) fun _ => Quiet.ok _
  exact (expectChar_quiet LF _).bind fun _ _ => Quiet.ok _

theorem skipSpaces_quiet (h : bytes ≠ []) : Quiet (skipSpaces p bytes) := by
  obtain ⟨x, cs, rfl⟩ := List.exists_cons_of_ne_nil h
  induction cs generalizing p x with
  | nil => exact Quiet.incomplete
  | cons c cs ih => exact Quiet.ite (fun _ => ih c (List.cons_ne_nil _ _)) fun _ => Quiet.ok _

theorem scanRest_quiet (P : Byte → Bool) (next : Byte) : Quiet (scanRest P next p bytes) := by
  induction bytes generalizing p with
  | nil => exact Quiet.incomplete
  | cons c cs ih => exact Quiet.ite (fun _ => Quiet.ok _) fun _ => Quiet.ite (fun _ => ih) fun _ => Quiet.refused

theorem parseToken_quiet (simd : Simd) {next_char : Byte} (h : isToken next_char = false) (buf : Slice) :
    Quiet (parseToken simd next_char buf) := by
  rw [parseToken_eq simd h]
  exact (scanRest_quiet _ _).bind fun _ _ => Quiet.ok _

theorem advanceToken_quiet (simd : Simd) (buf : Slice) : Quiet (advanceToken simd buf) := by
  rw [advanceToken_eq]
  exact (scanRest_quiet _ _).bind fun _ _ => Quiet.ok _

theorem eolLoop_quiet : Quiet (eolLoop p bytes) := by
  induction bytes generalizing p with
  | nil => exact Quiet.incomplete
  | cons c cs ih => exact Quiet.ite (fun _ => Quiet.ok _) fun _ => ih

theorem getTokenToEol_quiet (simd : Simd) (buf : Slice) : Quiet (getTokenToEol simd buf) := by
  rw [getTokenToEol_eq]
  refine eolLoop_quiet.bind fun ctl hctl => ?_
  obtain ⟨w, c, tl, -, -, -, rfl⟩ := eolLoop_ok_iff.1 hctl
  rw [foundCtl, get_cons, ok_bind, sliceFrom_cons]
  refine Quiet.ite (fun _ => ?_) fun _ => Quiet.ite (fun _ => Quiet.ok _) fun _ => Quiet.refused
  exact (expectChar_quiet LF _).bind fun _ _ => Quiet.ok _

theorem parseInt_quiet (mul : Int) (h : bytes ≠ []) : Quiet (parseInt mul ⟨p, bytes⟩) := by
  obtain ⟨c, cs, rfl⟩ := List.exists_cons_of_ne_nil h
  rw [parseInt, get_cons, ok_bind, sliceFrom_cons, ok_bind]
  exact Quiet.ite (fun _ => Quiet.refused) fun _ => Quiet.ok _

/-- "we want at least" three digits -/
theorem parseInt3_quiet (h : 3 ≤ bytes.length) : Quiet (parseInt3 ⟨p, bytes⟩) := by
  have hne : ∀ {w : List Byte}, 0 < w.length → w ≠ [] := List.ne_nil_of_length_pos
  refine (parseInt_quiet 100 (hne (by omega))).bind fun x hx => ?_
  obtain ⟨a, s⟩ := x
  obtain ⟨d, tl, rfl, -, -, rfl⟩ := parseInt_ok_iff.1 hx
  rw [List.length_cons] at h
  refine (parseInt_quiet 10 (hne (by omega))).bind fun y hy => ?_
  obtain ⟨b, s'⟩ := y
  obtain ⟨d', tl', rfl, -, -, rfl⟩ := parseInt_ok_iff.1 hy
  rw [List.length_cons] at h
  exact (parseInt_quiet 1 (hne (by omega))).bind fun _ _ => Quiet.ok _

theorem expectChars_quiet {chs : List Byte} (h : chs.length ≤ bytes.length) : Quiet (expectChars chs ⟨p, bytes⟩) := by
  induction chs generalizing p bytes with
  | nil => exact Quiet.ok _
  | cons ch chs ih =>
    cases bytes with
    | nil => exact absurd h (Nat.not_succ_le_zero _)
    | cons c cs =>
      rw [expectChars, expectCharNoCheck, get_cons, ok_bind, sliceFrom_cons, ok_bind]
      refine Quiet.bind (Quiet.ite (fun _ => Quiet.refused) fun _ => Quiet.ok _) fun s hs => ?_
      split_ifs at hs
      obtain rfl := Except.ok.inj hs
      exact ih (Nat.le_of_succ_le_succ h)

theorem parseHttpVersion_quiet : Quiet (parseHttpVersion ⟨p, bytes⟩) := by
  have hseven : (ascii "HTTP/1.").length = 7 := rfl
  refine Quiet.ite (fun _ => Quiet.incomplete) fun hlen => ?_
  have hnine : 9 ≤ bytes.length := Nat.not_lt.1 hlen
  refine (expectChars_quiet (by omega)).bind fun s hs => ?_
  obtain ⟨tl, rfl, rfl⟩ := expectChars_ok_iff.1 hs
  rw [List.length_append] at hnine
  exact parseInt_quiet 1 (List.ne_nil_of_length_pos (by omega))

theorem skipBlanks_quiet : Quiet (skipBlanks p bytes) := by
  induction bytes generalizing p with
  | nil => exact Quiet.incomplete
  | cons c cs ih => exact Quiet.ite (fun _ => ih) fun _ => Quiet.ok _

theorem headerName_quiet (simd : Simd) (num : Nat) (h : bytes ≠ []) : Quiet (headerName simd num ⟨p, bytes⟩) := by
  obtain ⟨c, cs, rfl⟩ := List.exists_cons_of_ne_nil h
  rw [headerName, get_cons, ok_bind]
  refine Quiet.ite (fun _ => ?_) fun _ => Quiet.ok _
  refine (parseToken_quiet simd (by decide) _).bind fun x hx => ?_
  obtain ⟨tok, s⟩ := x
  obtain ⟨w, tl, -, -, rfl⟩ := (parseToken_ok_iff simd (by decide)).1 hx
  refine Quiet.ite (fun _ => Quiet.refused) fun _ => ?_
  rw [sliceFrom_cons, ok_bind]
  exact skipBlanks_quiet.bind fun _ _ => Quiet.ok _

theorem parseHeader_quiet (simd : Simd) (num : Nat) (h : bytes ≠ []) : Quiet (parseHeader simd num ⟨p, bytes⟩) := by
  refine (headerName_quiet simd num h).bind fun x _ => ?_
  obtain ⟨name, s⟩ := x
  refine (getTokenToEol_quiet simd s).bind fun y _ => ?_
  obtain ⟨value, s'⟩ := y
  simp only
  rw [trimEnd_eq value (Nat.le_refl _)]
  exact Quiet.ok _

/-- The loop ends: there is one turn for each header there is room for, and one more. -/
theorem parseHeaders_quiet (simd : Simd) {max_headers fuel : Nat} {headers : List PhrHeader} (buf : Slice)
    (hle : headers.length ≤ max_headers) (hfuel : max_headers - headers.length < fuel) :
    Quiet (parseHeaders simd max_headers fuel headers buf) := by
  induction fuel generalizing headers buf with
  | zero => omega
  | succ fuel ih =>
    obtain ⟨p, bytes⟩ := buf
    refine (checkEof_quiet _).bind fun _ heof => ?_
    have hne : bytes ≠ [] := by
      rintro rfl
      cases heof
    refine (newLine_quiet hne).bind fun o _ => ?_
    cases o with
    | some s => exact Quiet.ok _
    | none =>
      refine Quiet.ite (fun _ => Quiet.refused) fun hroom => ?_
      refine (parseHeader_quiet simd _ hne).bind fun x _ => ?_
      have hlen : (headers ++ [x.1]).length = headers.length + 1 := by simp
      exact ih x.2 (by omega) (by omega)

theorem parseSection_quiet (simd : Simd) (max_headers : Nat) (buf : Slice) :
    Quiet (parseHeaders simd max_headers (max_headers + 1) [] buf) :=
  parseHeaders_quiet simd buf (Nat.zero_le _) (Nat.lt_succ_self _)

theorem parseRequest_quiet (simd : Simd) (max_headers : Nat) (bytes : List Byte) :
    Quiet (parseRequest simd max_headers ⟨0, bytes⟩) := by
  refine (checkEof_quiet _).bind fun _ heof => ?_
  have hne : bytes ≠ [] := by
    rintro rfl
    cases heof
  refine (newLine_quiet hne).bind fun o _ => ?_
  refine (parseToken_quiet simd (by decide) _).bind fun x hx => ?_
  obtain ⟨method, s₁⟩ := x
  obtain ⟨w, tl, -, -, rfl⟩ := (parseToken_ok_iff simd (by decide)).1 hx
  refine (skipSpaces_quiet (List.cons_ne_nil _ _)).bind fun s₂ _ => ?_
  refine (advanceToken_quiet simd _).bind fun y hy => ?_
  obtain ⟨path, s₃⟩ := y
  obtain ⟨w', tl', -, -, rfl⟩ := (advanceToken_ok_iff simd).1 hy
  refine (skipSpaces_quiet (List.cons_ne_nil _ _)).bind fun s₄ _ => ?_
  refine Quiet.ite (fun _ => Quiet.refused) fun _ => ?_
  refine parseHttpVersion_quiet.bind fun z hz => ?_
  obtain ⟨v, s₅⟩ := z
  obtain ⟨ver, c, tl'', -, -, rfl⟩ := parseHttpVersion_ok_iff.1 hz
  refine (newLine_quiet (List.cons_ne_nil _ _)).bind fun o' _ => ?_
  cases o' with
  | none => exact Quiet.refused
  | some s₆ => exact (parseSection_quiet simd max_headers s₆).bind fun _ _ => Quiet.ok _

theorem trimMsg_quiet {w rest : List Byte} (hrest : ∃ c ∈ rest.head?, c ≠ SP) :
    Quiet (trimMsg ⟨p, w ++ rest⟩ ⟨p, w⟩) := by
  cases w with
  | nil => exact Quiet.ok _
  | cons d w =>
    by_cases hd : d = SP
    · have hstart : ∀ c ∈ (d :: w).head?, c = SP := by
        rintro c hc
        rw [← Option.some.inj hc, hd]
      rw [(trimMsg_ok_iff hrest).2 ⟨hstart, rfl⟩]
      exact Quiet.ok _
    · refine Quiet.ite (fun _ => Quiet.ok _) fun _ => ?_
      rw [get_cons, ok_bind, if_neg hd]
      exact Quiet.refused

theorem parseResponse_quiet (simd : Simd) (max_headers : Nat) (bytes : List Byte) :
    Quiet (parseResponse simd max_headers ⟨0, bytes⟩) := by
  refine parseHttpVersion_quiet.bind fun x hx => ?_
  obtain ⟨v, s₁⟩ := x
  obtain ⟨ver, c, tl, -, -, rfl⟩ := parseHttpVersion_ok_iff.1 hx
  simp only [get_cons, ok_bind]
  refine Quiet.ite (fun _ => Quiet.refused) fun _ => ?_
  refine (skipSpaces_quiet (List.cons_ne_nil _ _)).bind fun s₂ _ => ?_
  refine Quiet.ite (fun _ => Quiet.incomplete) fun hfour => ?_
  refine (parseInt3_quiet (Nat.le_of_succ_le (Nat.not_lt.1 hfour))).bind fun y _ => ?_
  obtain ⟨status, q, start⟩ := y
  refine (getTokenToEol_quiet simd _).bind fun z hz => ?_
  obtain ⟨msg, s₃⟩ := z
  obtain ⟨w, eol, tl', rfl, rfl, -⟩ := (getTokenToEol_ok_iff simd).1 hz
  refine (trimMsg_quiet (eol_head eol tl')).bind fun m _ => ?_
  exact (parseSection_quiet simd max_headers s₃).bind fun _ _ => Quiet.ok _

theorem completeLoop_quiet (n : Nat) : Quiet (completeLoop n p bytes) := by
  induction bytes using List.twoStepInduction generalizing n p with
  | nil => exact Quiet.incomplete
  | singleton c =>
    refine Quiet.ite (fun _ => Quiet.incomplete) fun _ => Quiet.ite (fun _ => ?_) fun _ => Quiet.incomplete
    exact Quiet.ite (fun _ => Quiet.ok _) fun _ => Quiet.incomplete
  | cons_cons c d cs ih ih' =>
    refine Quiet.ite (fun _ => ?_) fun _ => Quiet.ite (fun _ => ?_) fun _ => ih' d _
    · exact Quiet.ite (fun _ => Quiet.refused) fun _ => Quiet.ite (fun _ => Quiet.ok _) fun _ => ih _
    · exact Quiet.ite (fun _ => Quiet.ok _) fun _ => ih' d _

theorem isComplete_quiet {last_len : Nat} (h : last_len ≤ bytes.length + 3) :
    Quiet (isComplete ⟨p, bytes⟩ last_len) := by
  unfold isComplete
  split_ifs
  · exact completeLoop_quiet 0
  · have hle : last_len - 3 ≤ (Slice.mk p bytes).length := by
      simp only [Slice.length]
      omega
    rw [Slice.sliceFrom_ok hle]
    exact completeLoop_quiet 0

end

/-! ## The two builds -/

section

variable (simd : Simd)

end

/-! ## The entry points -/

section

variable {α : Type} {parse : Slice → Except Stop (α × Slice)} {b : List Byte} {last_len : Nat}

/-- What `is_complete` lets through. -/
def Passes (b : List Byte) (last_len : Nat) : Prop := last_len ≠ 0 → ∃ s, isComplete ⟨0, b⟩ last_len = .ok s

theorem phrParse_passes (h : Passes b last_len) :
    phrParse parse b last_len = phrParse parse b 0 := by
  unfold phrParse
  by_cases h0 : last_len = 0
  · rw [h0]
  · obtain ⟨s, hs⟩ := h h0
    simp only [if_pos h0, hs, ok_bind]
    rfl

/-- Where the message is not complete, the check answers in place of the parser. -/
theorem phrParse_stops (hlast : last_len ≤ b.length + 3) (h : ¬ Passes b last_len) :
    phrParse parse b last_len = .ok (-1, none) ∨ phrParse parse b last_len = .ok (-2, none) := by
  obtain ⟨h0, hfail⟩ := Classical.not_imp.1 h
  simp only [phrParse, if_pos h0]
  cases hs : isComplete ⟨0, b⟩ last_len with
  | ok s => exact absurd ⟨s, hs⟩ hfail
  | error e =>
    rcases isComplete_quiet hlast e hs with rfl | rfl
    · exact Or.inl rfl
    · exact Or.inr rfl

theorem wrap_length {n : Nat} (h : n < 2 ^ 31) : Ints.d.wrap n = n := by
  show ((n : Int) + 2147483648) % 4294967296 - 2147483648 = n
  omega

/-- A positive answer without a check is the pointer the parser returns. -/
theorem phrParse_ok_iff (hb : b.length < 2 ^ 31) (hquiet : Quiet (parse ⟨0, b⟩))
    (hle : ∀ out r, parse ⟨0, b⟩ = .ok (out, r) → r.ptr ≤ b.length) {n : Int} {out : α} :
    phrParse parse b 0 = .ok (n, some out) ↔ ∃ r, parse ⟨0, b⟩ = .ok (out, r) ∧ n = r.ptr := by
  have hbody : (do
      if (0 : Nat) ≠ 0 then
        let _ ← isComplete ⟨0, b⟩ 0
      parse ⟨0, b⟩) = parse ⟨0, b⟩ := rfl
  rw [phrParse, hbody]
  cases hparse : parse ⟨0, b⟩ with
  | error e =>
    constructor
    · intro h
      rcases hquiet e hparse with rfl | rfl <;> cases h
    · rintro ⟨_, h, -⟩
      cases h
  | ok x =>
    obtain ⟨out', r⟩ := x
    have hwrap := wrap_length ((hle out' r hparse).trans_lt hb)
    constructor
    · intro h
      obtain ⟨rfl, hout⟩ := Prod.mk.inj (Except.ok.inj h)
      obtain rfl := Option.some.inj hout
      exact ⟨r, rfl, hwrap⟩
    · rintro ⟨r', h, rfl⟩
      obtain ⟨rfl, rfl⟩ := Prod.mk.inj (Except.ok.inj h)
      exact congrArg (fun k => Except.ok (k, some out')) hwrap

theorem section_pos (s : Section) : 0 < s.bytes.length := by
  have heol : 0 < s.eol.bytes.length := by cases s.eol <;> decide
  rw [Section.bytes, List.length_append]
  omega

theorem Request.length_pos (q : Request) : 0 < q.bytes.length := by
  have := section_pos q.headers
  rw [Request.bytes, List.length_append]
  omega

theorem Response.length_pos (q : Response) : 0 < q.bytes.length := by
  have := section_pos q.headers
  rw [Response.bytes, List.length_append]
  omega

section

variable (simd : Simd) {max_headers : Nat} {n : Int}

/-- **`phr_parse_request` accepts exactly its grammar.** -/
theorem phrParseRequest_ok_iff (hb : b.length < 2 ^ 31) {out : PhrRequest} :
    phrParseRequest simd max_headers b 0 = .ok (n, some out) ↔
      ∃ q : Request, q.bytes <+: b ∧ n = q.bytes.length ∧ q.headers.lines.length ≤ max_headers ∧ out = q.out := by
  have hle : ∀ out r, parseRequest simd max_headers ⟨0, b⟩ = .ok (out, r) → r.ptr ≤ b.length := by
    intro out r hr
    obtain ⟨q, tl, -, rfl, -, rfl⟩ := (parseRequest_ok_iff simd).1 hr
    exact (List.prefix_append _ _).length_le
  refine (phrParse_ok_iff hb (parseRequest_quiet simd max_headers b) hle).trans ⟨?_, ?_⟩
  · rintro ⟨r, hr, rfl⟩
    obtain ⟨q, tl, hroom, rfl, rfl, rfl⟩ := (parseRequest_ok_iff simd).1 hr
    exact ⟨q, List.prefix_append _ _, rfl, hroom, rfl⟩
  · rintro ⟨q, ⟨tl, rfl⟩, rfl, hroom, rfl⟩
    exact ⟨_, (parseRequest_ok_iff simd).2 ⟨q, tl, hroom, rfl, rfl, rfl⟩, rfl⟩

/-- **`phr_parse_response` accepts exactly its grammar.** -/
theorem phrParseResponse_ok_iff (hb : b.length < 2 ^ 31) {out : PhrResponse} :
    phrParseResponse simd max_headers b 0 = .ok (n, some out) ↔
      ∃ q : Response, q.bytes <+: b ∧ n = q.bytes.length ∧ q.headers.lines.length ≤ max_headers ∧ out = q.out := by
  have hle : ∀ out r, parseResponse simd max_headers ⟨0, b⟩ = .ok (out, r) → r.ptr ≤ b.length := by
    intro out r hr
    obtain ⟨q, tl, -, rfl, -, rfl⟩ := (parseResponse_ok_iff simd).1 hr
    exact (List.prefix_append _ _).length_le
  refine (phrParse_ok_iff hb (parseResponse_quiet simd max_headers b) hle).trans ⟨?_, ?_⟩
  · rintro ⟨r, hr, rfl⟩
    obtain ⟨q, tl, hroom, rfl, rfl, rfl⟩ := (parseResponse_ok_iff simd).1 hr
    exact ⟨q, List.prefix_append _ _, rfl, hroom, rfl⟩
  · rintro ⟨q, ⟨tl, rfl⟩, rfl, hroom, rfl⟩
    exact ⟨_, (parseResponse_ok_iff simd).2 ⟨q, tl, hroom, rfl, rfl, rfl⟩, rfl⟩

end

end

end Httparsed.Pico
