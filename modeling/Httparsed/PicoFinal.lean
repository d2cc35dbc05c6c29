import Httparsed.PicoSafety

/-!
# The answers of picohttpparser are final

`Settled`: what a function reads or refuses in a buffer, it reads or refuses in every longer one; only the answer
`-2` is open. Every function of the parser is settled, hence every entry point (`phrParse_settled`).
-/

namespace Httparsed.Pico

open Grammar

/-- The slice of a buffer that has `y` behind it now. -/
def more (y : List Byte) (s : Slice) : Slice := ⟨s.ptr, s.bytes ++ y⟩

/-- `x'` does in the longer buffer what `x` does, unless that is `-2`; `g` is what becomes of a result. -/
structure Settled {α : Type} (g : α → α) (x x' : Except Stop α) : Prop where
  ok : ∀ {a : α}, x = .ok a → x' = .ok (g a)
  ret : ∀ {r : Int}, r ≠ -2 → x = .error (.ret r) → x' = .error (.ret r)

namespace Settled

variable {α β : Type} {g : α → α} {k : β → β} {x x' : Except Stop α}

theorem of_ok (a : α) : Settled g (.ok a) (.ok (g a)) :=
  ⟨fun h => by rw [← Except.ok.inj h], fun _ h => (nomatch h)⟩

theorem of_ret (r : Int) : Settled g (.error (.ret r)) (.error (.ret r)) := ⟨fun h => (nomatch h), fun _ h => h⟩

theorem incomplete : Settled g (.error (.ret (-2))) x' :=
  ⟨fun h => (nomatch h), fun hr h => absurd (Stop.ret.inj (Except.error.inj h)).symm hr⟩

theorem fault (f : Fault) : Settled g (.error (.fault f)) x' := ⟨fun h => (nomatch h), fun _ h => (nomatch h)⟩

theorem refl (x : Except Stop α) : Settled id x x := ⟨fun h => h, fun _ h => h⟩

theorem bind {f f' : α → Except Stop β} (hx : Settled g x x')
    (hf : ∀ a, x = .ok a → Settled k (f a) (f' (g a))) : Settled k (x >>= f) (x' >>= f') := by
  cases x with
  | ok a =>
    rw [hx.ok rfl]
    exact hf a rfl
  | error e =>
    cases e with
    | fault f => exact fault f
    | ret r =>
      by_cases hr : r = -2
      · rw [hr]
        exact incomplete
      · rw [hx.ret hr rfl]
        exact of_ret r

theorem ite {c : Prop} [Decidable c] {z z' : Except Stop α} (hx : c → Settled g x x') (hz : ¬ c → Settled g z z') :
    Settled g (if c then x else z) (if c then x' else z') := by
  split_ifs with h
  · exact hx h
  · exact hz h

end Settled

/-! ## Bytes and slices -/

section

variable {p : Nat} {bytes : List Byte} (y : List Byte)

theorem get_settled (s : Slice) (i : Nat) : Settled id (s.get i) ((more y s).get i) := by
  cases hc : s.bytes[i]? with
  | none =>
    simp only [Slice.get, hc]
    exact Settled.fault _
  | some c =>
    have hmore : (more y s).bytes[i]? = some c := by
      rw [more, List.getElem?_append_left (List.getElem?_eq_some_iff.1 hc).1, hc]
    simp only [Slice.get, hc, hmore]
    exact Settled.of_ok c

theorem sliceFrom_settled (s : Slice) (a : Nat) : Settled (more y) (s.sliceFrom a) ((more y s).sliceFrom a) := by
  by_cases h : a ≤ s.length
  · have hmore : a ≤ (more y s).length := by
      simp only [more, Slice.length, List.length_append] at h ⊢
      omega
    rw [Slice.sliceFrom_ok h, Slice.sliceFrom_ok hmore]
    have hdrop : (more y s).bytes.drop a = s.bytes.drop a ++ y := List.drop_append_of_le_length h
    rw [hdrop]
    exact Settled.of_ok _
  · rw [Slice.sliceFrom, Slice.slice, if_neg fun hle => h hle.1]
    exact Settled.fault _

theorem sub_more {s : Slice} {n : Nat} (h : n ≤ s.length) : (more y s).sub 0 n = s.sub 0 n :=
  congrArg (Slice.mk s.ptr) (List.take_append_of_le_length h)

theorem checkEof_settled (s : Slice) : Settled id (checkEof s) (checkEof (more y s)) := by
  obtain ⟨p, bytes⟩ := s
  cases bytes with
  | nil => exact Settled.incomplete
  | cons c cs => exact Settled.of_ok _

theorem expectCharNoCheck_settled (ch : Byte) (s : Slice) :
    Settled (more y) (expectCharNoCheck ch s) (expectCharNoCheck ch (more y s)) := by
  refine (get_settled y s 0).bind fun c _ => (sliceFrom_settled y s 1).bind fun r _ => ?_
  exact Settled.ite (fun _ => Settled.of_ret _) fun _ => Settled.of_ok r

theorem expectChar_settled (ch : Byte) (s : Slice) :
    Settled (more y) (expectChar ch s) (expectChar ch (more y s)) :=
  (checkEof_settled y s).bind fun _ _ => expectCharNoCheck_settled y ch s

theorem parseInt_settled (mul : Int) (s : Slice) :
    Settled (Prod.map id (more y)) (parseInt mul s) (parseInt mul (more y s)) := by
  refine (get_settled y s 0).bind fun c _ => Settled.ite (fun _ => Settled.of_ret _) fun _ => ?_
  exact (sliceFrom_settled y s 1).bind fun r _ => Settled.of_ok (_, r)

theorem parseInt3_settled (s : Slice) : Settled (Prod.map id (more y)) (parseInt3 s) (parseInt3 (more y s)) := by
  refine (parseInt_settled y 100 s).bind fun a _ => (parseInt_settled y 10 a.2).bind fun b _ => ?_
  exact (parseInt_settled y 1 b.2).bind fun c _ => Settled.of_ok (_, c.2)

theorem newLine_settled (s : Slice) : Settled (Option.map (more y)) (newLine s) (newLine (more y s)) := by
  refine (get_settled y s 0).bind fun c _ => Settled.ite (fun _ => ?_) fun _ => Settled.ite (fun _ => ?_) fun _ => ?_
  · refine (sliceFrom_settled y s 1).bind fun r _ => ?_
    exact (expectChar_settled y LF r).bind fun r' _ => Settled.of_ok (some r')
  · exact (sliceFrom_settled y s 1).bind fun r _ => Settled.of_ok (some r)
  · exact Settled.of_ok none

theorem skipSpaces_settled : Settled (more y) (skipSpaces p bytes) (skipSpaces p (bytes ++ y)) := by
  induction bytes generalizing p with
  | nil => exact Settled.fault _
  | cons x cs ih =>
    cases cs with
    | nil => exact Settled.incomplete
    | cons c cs => exact Settled.ite (fun _ => ih) fun _ => Settled.of_ok (Slice.mk (p + 1) (c :: cs))

theorem skipBlanks_settled : Settled (more y) (skipBlanks p bytes) (skipBlanks p (bytes ++ y)) := by
  induction bytes generalizing p with
  | nil => exact Settled.incomplete
  | cons c cs ih => exact Settled.ite (fun _ => ih) fun _ => Settled.of_ok (Slice.mk p (c :: cs))

/-! ## Tokens and texts -/

theorem scanRest_settled (P : Byte → Bool) (next : Byte) :
    Settled (more y) (scanRest P next p bytes) (scanRest P next p (bytes ++ y)) := by
  induction bytes generalizing p with
  | nil => exact Settled.incomplete
  | cons c cs ih =>
    refine Settled.ite (fun _ => Settled.of_ok (Slice.mk p (c :: cs))) fun _ => ?_
    exact Settled.ite (fun _ => ih) fun _ => Settled.of_ret _

theorem upTo_settled {P : Byte → Bool} {next : Byte} (h : P next = false) (s : Slice) :
    Settled (Prod.map id (more y)) (scanRest P next s.ptr s.bytes >>= fun r => .ok (upTo s r, r))
      (scanRest P next s.ptr (s.bytes ++ y) >>= fun r => .ok (upTo (more y s) r, r)) := by
  refine (scanRest_settled y P next).bind fun r hr => ?_
  obtain ⟨w, tl, hsplit, -, rfl⟩ := (scanRest_ok_iff h).1 hr
  have hle : s.ptr + w.length - s.ptr ≤ s.length := by
    rw [Slice.length, hsplit, List.length_append]
    omega
  have hupTo : upTo (more y s) (more y ⟨s.ptr + w.length, next :: tl⟩) = upTo s ⟨s.ptr + w.length, next :: tl⟩ :=
    sub_more y hle
  rw [hupTo]
  exact Settled.of_ok (_, _)

theorem parseToken_settled (simd : Simd) {next_char : Byte} (h : isToken next_char = false) (s : Slice) :
    Settled (Prod.map id (more y)) (parseToken simd next_char s) (parseToken simd next_char (more y s)) := by
  rw [parseToken_eq simd h, parseToken_eq simd h]
  exact upTo_settled y h s

theorem advanceToken_settled (simd : Simd) (s : Slice) :
    Settled (Prod.map id (more y)) (advanceToken simd s) (advanceToken simd (more y s)) := by
  rw [advanceToken_eq, advanceToken_eq]
  exact upTo_settled y uriByte_leaves.next_out s

theorem eolLoop_settled : Settled (more y) (eolLoop p bytes) (eolLoop p (bytes ++ y)) := by
  induction bytes generalizing p with
  | nil => exact Settled.incomplete
  | cons c cs ih => exact Settled.ite (fun _ => Settled.of_ok (Slice.mk p (c :: cs))) fun _ => ih

theorem foundCtl_settled {s r : Slice} (h : r.ptr - s.ptr ≤ s.length) :
    Settled (Prod.map id (more y)) (foundCtl s r) (foundCtl (more y s) (more y r)) := by
  refine (get_settled y r 0).bind fun c _ => Settled.ite (fun _ => ?_) fun _ => Settled.ite (fun _ => ?_) fun _ => ?_
  · refine (sliceFrom_settled y r 1).bind fun r₁ h₁ => (expectChar_settled y LF r₁).bind fun r₂ h₂ => ?_
    obtain ⟨q, bytes⟩ := r
    cases bytes with
    | nil => cases h₁
    | cons c cs =>
      rw [sliceFrom_cons] at h₁
      obtain rfl := Except.ok.inj h₁
      obtain ⟨tl, -, rfl⟩ := expectChar_ok_iff.1 h₂
      have hle : q + 1 + 1 - 2 - s.ptr ≤ s.length := h
      have hsub : (more y s).sub 0 ((more y ⟨q + 1 + 1, tl⟩).ptr - 2 - (more y s).ptr) =
          s.sub 0 (q + 1 + 1 - 2 - s.ptr) :=
        sub_more y hle
      simp only [hsub]
      exact Settled.of_ok (_, _)
  · refine (sliceFrom_settled y r 1).bind fun r₁ _ => ?_
    have hupTo : upTo (more y s) (more y r) = upTo s r := sub_more y h
    rw [hupTo]
    exact Settled.of_ok (_, r₁)
  · exact Settled.of_ret _

theorem getTokenToEol_settled (simd : Simd) (s : Slice) :
    Settled (Prod.map id (more y)) (getTokenToEol simd s) (getTokenToEol simd (more y s)) := by
  rw [getTokenToEol_eq, getTokenToEol_eq]
  refine (eolLoop_settled y).bind fun r hr => foundCtl_settled y ?_
  obtain ⟨w, c, tl, hsplit, -, -, rfl⟩ := eolLoop_ok_iff.1 hr
  rw [Slice.length, hsplit, List.length_append]
  simp only
  omega

theorem expectChars_settled (chs : List Byte) (s : Slice) :
    Settled (more y) (expectChars chs s) (expectChars chs (more y s)) := by
  induction chs generalizing s with
  | nil => exact Settled.of_ok s
  | cons ch chs ih => exact (expectCharNoCheck_settled y ch s).bind fun r _ => ih r

theorem parseHttpVersion_settled (s : Slice) :
    Settled (Prod.map id (more y)) (parseHttpVersion s) (parseHttpVersion (more y s)) := by
  by_cases h : s.length < 9
  · rw [parseHttpVersion, if_pos h]
    exact Settled.incomplete
  · have hmore : ¬ (more y s).length < 9 := by
      simp only [more, Slice.length, List.length_append] at h ⊢
      omega
    rw [parseHttpVersion, if_neg h, parseHttpVersion, if_neg hmore]
    exact (expectChars_settled y _ s).bind fun r _ => parseInt_settled y 1 r

/-! ## Headers -/

theorem headerName_settled (simd : Simd) (num : Nat) (s : Slice) :
    Settled (Prod.map id (more y)) (headerName simd num s) (headerName simd num (more y s)) := by
  refine (get_settled y s 0).bind fun c _ => Settled.ite (fun _ => ?_) fun _ => Settled.of_ok (none, s)
  refine (parseToken_settled y simd (by decide) s).bind fun x _ => ?_
  refine Settled.ite (fun _ => Settled.of_ret _) fun _ => ?_
  refine (sliceFrom_settled y x.2 1).bind fun r _ => ?_
  exact (skipBlanks_settled y).bind fun r' _ => Settled.of_ok (some x.1, r')

theorem parseHeader_settled (simd : Simd) (num : Nat) (s : Slice) :
    Settled (Prod.map id (more y)) (parseHeader simd num s) (parseHeader simd num (more y s)) := by
  refine (headerName_settled y simd num s).bind fun x _ => (getTokenToEol_settled y simd x.2).bind fun z _ => ?_
  exact (Settled.refl (trimEnd z.1 z.1.length)).bind fun k _ => Settled.of_ok (PhrHeader.mk x.1 (z.1.sub 0 k), z.2)

theorem parseHeaders_settled (simd : Simd) (max_headers fuel : Nat) (headers : List PhrHeader) (s : Slice) :
    Settled (Prod.map id (more y)) (parseHeaders simd max_headers fuel headers s)
      (parseHeaders simd max_headers fuel headers (more y s)) := by
  induction fuel generalizing headers s with
  | zero => exact Settled.fault _
  | succ fuel ih =>
    refine (checkEof_settled y s).bind fun _ _ => (newLine_settled y s).bind fun o _ => ?_
    cases o with
    | some r => exact Settled.of_ok (headers, r)
    | none =>
      refine Settled.ite (fun _ => Settled.of_ret _) fun _ => ?_
      exact (parseHeader_settled y simd _ s).bind fun x _ => ih _ x.2

/-! ## Messages -/

theorem parseRequest_settled (simd : Simd) (max_headers : Nat) (s : Slice) :
    Settled (Prod.map id (more y)) (parseRequest simd max_headers s) (parseRequest simd max_headers (more y s)) := by
  refine (checkEof_settled y s).bind fun _ _ => (newLine_settled y s).bind fun lead _ => ?_
  have hlead : (lead.map (more y)).getD (more y s) = more y (lead.getD s) := by cases lead <;> rfl
  rw [hlead]
  refine (parseToken_settled y simd (by decide) _).bind fun method _ => (skipSpaces_settled y).bind fun r₂ _ => ?_
  refine (advanceToken_settled y simd r₂).bind fun path _ => (skipSpaces_settled y).bind fun r₄ _ => ?_
  refine Settled.ite (fun _ => Settled.of_ret _) fun _ => ?_
  refine (parseHttpVersion_settled y r₄).bind fun v _ => (newLine_settled y v.2).bind fun o _ => ?_
  cases o with
  | none => exact Settled.of_ret _
  | some r₆ =>
    refine (parseHeaders_settled y simd max_headers _ [] r₆).bind fun x _ => ?_
    exact Settled.of_ok (PhrRequest.mk method.1 path.1 v.1 x.1, x.2)

/-- The message of a status line is cut the same way whatever follows its line end. -/
theorem trimMsg_settled {w rest : List Byte} (hrest : ∃ c ∈ rest.head?, c ≠ SP) :
    Settled id (trimMsg ⟨p, w ++ rest⟩ ⟨p, w⟩) (trimMsg ⟨p, w ++ rest ++ y⟩ ⟨p, w⟩) := by
  have hmore := start_append hrest y
  rw [List.append_assoc]
  refine ⟨fun hok => (trimMsg_ok_iff hmore).2 ((trimMsg_ok_iff hrest).1 hok), fun _ hret => ?_⟩
  cases w with
  | nil => cases hret
  | cons d w =>
    have hlen : ¬ (Slice.mk p (d :: w)).length = 0 := Nat.succ_ne_zero _
    by_cases hd : d = SP
    · have hstart : ∀ c ∈ (d :: w).head?, c = SP := by
        rintro c hc
        rw [← Option.some.inj hc, hd]
      rw [(trimMsg_ok_iff hrest).2 ⟨hstart, rfl⟩] at hret
      cases hret
    · rw [trimMsg, if_neg hlen, get_cons, ok_bind, if_neg hd] at hret ⊢
      exact hret

theorem parseResponse_settled (simd : Simd) (max_headers : Nat) (s : Slice) :
    Settled (Prod.map id (more y)) (parseResponse simd max_headers s) (parseResponse simd max_headers (more y s)) := by
  refine (parseHttpVersion_settled y s).bind fun v _ => (get_settled y v.2 0).bind fun c _ => ?_
  refine Settled.ite (fun _ => Settled.of_ret _) fun _ => (skipSpaces_settled y).bind fun r₂ _ => ?_
  by_cases h : r₂.length < 4
  · rw [if_pos h]
    exact Settled.incomplete
  · have hmore : ¬ (more y r₂).length < 4 := by
      simp only [more, Slice.length, List.length_append] at h ⊢
      omega
    rw [if_neg h, if_neg hmore]
    refine (parseInt3_settled y r₂).bind fun code _ => (getTokenToEol_settled y simd code.2).bind fun z hz => ?_
    obtain ⟨status, q, start⟩ := code
    obtain ⟨msg, r₃⟩ := z
    obtain ⟨w, eol, tl, rfl, rfl, rfl⟩ := (getTokenToEol_ok_iff simd).1 hz
    refine (trimMsg_settled y (eol_head eol tl)).bind fun msg _ => ?_
    refine (parseHeaders_settled y simd max_headers _ [] _).bind fun x _ => ?_
    exact Settled.of_ok (PhrResponse.mk v.1 status msg x.1, x.2)

theorem completeLoop_settled (n : Nat) : Settled (more y) (completeLoop n p bytes) (completeLoop n p (bytes ++ y)) := by
  induction bytes using List.twoStepInduction generalizing n p with
  | nil => exact Settled.incomplete
  | singleton c =>
    by_cases hCR : c = CR
    · subst hCR
      exact Settled.incomplete
    · have hstep : ∀ cs, completeLoop n p (c :: cs) = if c = LF then
          if n + 1 = 2 then .ok ⟨p + 1, cs⟩ else completeLoop (n + 1) (p + 1) cs
        else completeLoop 0 (p + 1) cs := by
        intro cs
        conv_lhs => unfold completeLoop
        exact if_neg hCR
      rw [List.singleton_append, hstep, hstep]
      refine Settled.ite (fun _ => Settled.ite (fun _ => ?_) fun _ => Settled.incomplete) fun _ => Settled.incomplete
      exact Settled.of_ok (Slice.mk (p + 1) [])
  | cons_cons c d cs ih ih' =>
    refine Settled.ite (fun _ => ?_) fun _ => Settled.ite (fun _ => ?_) fun _ => ih' d _
    · refine Settled.ite (fun _ => Settled.of_ret _) fun _ => Settled.ite (fun _ => ?_) fun _ => ih _
      exact Settled.of_ok (Slice.mk (p + 2) cs)
    · exact Settled.ite (fun _ => Settled.of_ok (Slice.mk (p + 1) (d :: cs))) fun _ => ih' d _

theorem isComplete_settled (last_len : Nat) (s : Slice) :
    Settled (more y) (isComplete s last_len) (isComplete (more y s) last_len) := by
  unfold isComplete
  split_ifs
  · exact completeLoop_settled y 0
  · refine (sliceFrom_settled y s _).bind fun r _ => ?_
    exact completeLoop_settled y 0

end

/-! ## The entry points -/

/-- An answer that is not `-2` is the answer in every longer buffer. -/
theorem phrParse_settled {α : Type} {parse : Slice → Except Stop (α × Slice)} {y b : List Byte}
    (hparse : ∀ s, Settled (Prod.map id (more y)) (parse s) (parse (more y s))) {last_len : Nat} {r : Int}
    {out : Option α} (h : phrParse parse b last_len = .ok (r, out)) (hr : r ≠ -2) :
    phrParse parse (b ++ y) last_len = .ok (r, out) := by
  have hbody : Settled (Prod.map id (more y))
      (do
        if last_len ≠ 0 then
          let _ ← isComplete ⟨0, b⟩ last_len
        parse ⟨0, b⟩)
      (do
        if last_len ≠ 0 then
          let _ ← isComplete ⟨0, b ++ y⟩ last_len
        parse ⟨0, b ++ y⟩) := by
    refine Settled.ite (fun _ => ?_) fun _ => hparse ⟨0, b⟩
    exact (isComplete_settled y last_len ⟨0, b⟩).bind fun _ _ => hparse ⟨0, b⟩
  rw [phrParse] at h ⊢
  split at h
  next out' s hs =>
    rw [hbody.ok hs]
    exact h
  next r' hs =>
    obtain ⟨rfl, rfl⟩ := Prod.mk.inj (Except.ok.inj h)
    rw [hbody.ret hr hs]
  next f hs => cases h

/-- **An answer is final**: once it is not `-2`, it stays the same whatever comes behind the buffer. -/
theorem phr_final (simd : Simd) (max_headers : Nat) (b y : List Byte) (last_len : Nat) {r : Int} (hr : r ≠ -2) :
    (∀ out, phrParseRequest simd max_headers b last_len = .ok (r, out) →
      phrParseRequest simd max_headers (b ++ y) last_len = .ok (r, out)) ∧
    (∀ out, phrParseResponse simd max_headers b last_len = .ok (r, out) →
      phrParseResponse simd max_headers (b ++ y) last_len = .ok (r, out)) ∧
    (∀ out, phrParseHeaders simd max_headers b last_len = .ok (r, out) →
      phrParseHeaders simd max_headers (b ++ y) last_len = .ok (r, out)) := by
  refine ⟨fun out h => ?_, fun out h => ?_, fun out h => ?_⟩
  · exact phrParse_settled (parseRequest_settled y simd max_headers) h hr
  · exact phrParse_settled (parseResponse_settled y simd max_headers) h hr
  · exact phrParse_settled (parseHeaders_settled y simd max_headers (max_headers + 1) []) h hr

/-- A header without a name is refused, and remains so. -/
theorem phr_final_nameless : phrParseHeaders .unrolled 4 (ascii "a: b\n:" ++ ascii "c\n\n") 0 = .ok (-1, none) :=
  (phr_final .unrolled 4 (ascii "a: b\n:") (ascii "c\n\n") 0 (by decide)).2.2 none (by rfl)

end Httparsed.Pico
