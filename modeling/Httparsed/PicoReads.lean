import Httparsed.PicoScan
import Httparsed.PicoGrammar
import Httparsed.Msg

/-!
# What picohttpparser reads, piece by piece

For each part of a message, when the C code gets past it and what it then stores: line ends, tokens, gaps, texts,
numbers, and one header line (`parseHeader_line`, `parseHeader_reads`). Each is stated for a pointer `p` with the
bytes behind it.
-/

namespace Httparsed.Pico

open Grammar

/-! ## Bytes and line ends -/

theorem bind_ok_iff {α β : Type} {x : Except Stop α} {f : α → Except Stop β} {b : β} :
    x >>= f = .ok b ↔ ∃ a, x = .ok a ∧ f a = .ok b := by
  cases x with
  | error e => exact ⟨fun h => (nomatch h), fun ⟨_, h, _⟩ => nomatch h⟩
  | ok a => exact ⟨fun h => ⟨a, rfl, h⟩, fun ⟨_, h, hf⟩ => by cases h; exact hf⟩

section

variable {p : Nat} {bytes cs : List Byte} {c : Byte} {r : Slice}

@[simp] theorem get_cons : Slice.get ⟨p, c :: cs⟩ 0 = .ok c := rfl

@[simp] theorem sliceFrom_cons : Slice.sliceFrom ⟨p, c :: cs⟩ 1 = .ok ⟨p + 1, cs⟩ :=
  Slice.sliceFrom_ok (s := ⟨p, c :: cs⟩) (a := 1) (Nat.le_add_left 1 cs.length)

@[simp] theorem checkEof_cons : checkEof ⟨p, c :: cs⟩ = .ok ⟨⟩ := if_neg (Nat.succ_ne_zero _)

theorem expectChar_cons (ch : Byte) :
    expectChar ch ⟨p, c :: cs⟩ = if c ≠ ch then .error (.ret (-1)) else .ok ⟨p + 1, cs⟩ := by
  rw [expectChar, checkEof_cons, ok_bind, expectCharNoCheck, get_cons, ok_bind, sliceFrom_cons, ok_bind]

theorem expectChar_ok_iff {ch : Byte} :
    expectChar ch ⟨p, bytes⟩ = .ok r ↔ ∃ tl, bytes = ch :: tl ∧ r = ⟨p + 1, tl⟩ := by
  cases bytes with
  | nil => exact ⟨fun h => (nomatch h), fun ⟨_, h, _⟩ => nomatch h⟩
  | cons c cs =>
    rw [expectChar_cons]
    constructor
    · intro h
      split_ifs at h with hc
      exact ⟨cs, by rw [not_not.1 hc], (Except.ok.inj h).symm⟩
    · rintro ⟨tl, h, rfl⟩
      obtain ⟨rfl, rfl⟩ := List.cons.inj h
      exact if_neg (not_not.2 rfl)

/-- A line end is read whole. -/
theorem newLine_some_iff :
    newLine ⟨p, bytes⟩ = .ok (some r) ↔
      ∃ (eol : Eol) (tl : List Byte), bytes = eol.bytes ++ tl ∧ r = ⟨p + eol.bytes.length, tl⟩ := by
  cases bytes with
  | nil =>
    refine ⟨fun h => (nomatch h), fun ⟨eol, tl, h, _⟩ => ?_⟩
    obtain ⟨c, cs, hc, -⟩ := Eol.exists_cons eol tl
    rw [hc] at h
    cases h
  | cons c cs =>
    rw [newLine, get_cons, ok_bind, sliceFrom_cons]
    constructor
    · intro h
      split_ifs at h with hCR hLF
      · obtain ⟨s, hs, h⟩ := bind_ok_iff.1 h
        obtain rfl := Except.ok.inj hs
        obtain ⟨s', hs', h⟩ := bind_ok_iff.1 h
        obtain ⟨tl, rfl, rfl⟩ := expectChar_ok_iff.1 hs'
        obtain rfl := Option.some.inj (Except.ok.inj h)
        exact ⟨.crlf, tl, by rw [hCR]; rfl, rfl⟩
      · obtain rfl := Option.some.inj (Except.ok.inj h)
        exact ⟨.lf, cs, by rw [hLF]; rfl, rfl⟩
      · cases h
    · rintro ⟨eol, tl, h, rfl⟩
      cases eol with
      | crlf =>
        obtain ⟨rfl, rfl⟩ := List.cons.inj h
        rw [if_pos rfl, ok_bind, show (LF :: ([] : List Byte)).append tl = LF :: tl from rfl, expectChar_cons]
        rfl
      | lf =>
        obtain ⟨rfl, rfl⟩ := List.cons.inj h
        rfl

theorem newLine_none_iff :
    newLine ⟨p, bytes⟩ = .ok none ↔ ∃ c cs, bytes = c :: cs ∧ c ≠ CR ∧ c ≠ LF := by
  cases bytes with
  | nil => exact ⟨fun h => (nomatch h), fun ⟨_, _, h, _⟩ => nomatch h⟩
  | cons c cs =>
    rw [newLine, get_cons, ok_bind, sliceFrom_cons]
    constructor
    · intro h
      split_ifs at h with hCR hLF
      · obtain ⟨s, hs, h⟩ := bind_ok_iff.1 h
        obtain ⟨s', -, h⟩ := bind_ok_iff.1 h
        cases h
      · cases h
      · exact ⟨c, cs, rfl, hCR, hLF⟩
    · rintro ⟨d, ds, h, hCR, hLF⟩
      obtain ⟨rfl, rfl⟩ := List.cons.inj h
      rw [if_neg hCR, if_neg hLF]

/-! ## Words -/

/-- A token and what comes up to `next`; it may be empty. -/
theorem scanRest_text_iff {P : Byte → Bool} {next : Byte} (h : P next = false) {tok : Slice} :
    (scanRest P next p bytes >>= fun buf => .ok (upTo ⟨p, bytes⟩ buf, buf)) = .ok (tok, r) ↔
      ∃ (w : Text P) (tl : List Byte), bytes = w.bytes ++ next :: tl ∧ tok = ⟨p, w.bytes⟩ ∧
        r = ⟨p + w.bytes.length, next :: tl⟩ := by
  rw [bind_ok_iff]
  constructor
  · rintro ⟨buf, hbuf, hr⟩
    obtain ⟨w, tl, rfl, hw, rfl⟩ := (scanRest_ok_iff h).1 hbuf
    obtain ⟨rfl, rfl⟩ := Prod.mk.inj (Except.ok.inj hr)
    exact ⟨⟨w, hw⟩, tl, rfl, upTo_append p w _, rfl⟩
  · rintro ⟨w, tl, rfl, rfl, rfl⟩
    refine ⟨_, (scanRest_ok_iff h).2 ⟨w.bytes, tl, rfl, w.all, rfl⟩, ?_⟩
    rw [upTo_append]

theorem parseToken_ok_iff (simd : Simd) {next_char : Byte} (h : isToken next_char = false) {tok : Slice} :
    parseToken simd next_char ⟨p, bytes⟩ = .ok (tok, r) ↔
      ∃ (w : Text isToken) (tl : List Byte), bytes = w.bytes ++ next_char :: tl ∧ tok = ⟨p, w.bytes⟩ ∧
        r = ⟨p + w.bytes.length, next_char :: tl⟩ := by
  rw [parseToken_eq simd h]
  exact scanRest_text_iff h

theorem advanceToken_ok_iff (simd : Simd) {tok : Slice} :
    advanceToken simd ⟨p, bytes⟩ = .ok (tok, r) ↔
      ∃ (w : Text uriByte) (tl : List Byte), bytes = w.bytes ++ SP :: tl ∧ tok = ⟨p, w.bytes⟩ ∧
        r = ⟨p + w.bytes.length, SP :: tl⟩ := by
  rw [advanceToken_eq]
  exact scanRest_text_iff uriByte_leaves.next_out

/-- Spaces, and a byte that is none behind them. -/
theorem skipSpaces_ok_iff :
    skipSpaces p (SP :: bytes) = .ok r ↔
      ∃ (gap : Spaces) (c : Byte) (tl : List Byte), SP :: bytes = gap.bytes ++ c :: tl ∧ c ≠ SP ∧
        r = ⟨p + gap.bytes.length, c :: tl⟩ := by
  induction bytes generalizing p with
  | nil =>
    refine ⟨fun h => (nomatch h), fun ⟨gap, c, tl, h, hc, _⟩ => ?_⟩
    obtain ⟨d, ds, hgap, -, -⟩ := Word.exists_cons gap
    rw [hgap] at h
    have hnil := (List.cons.inj h).2
    exact absurd hnil.symm (List.append_ne_nil_of_right_ne_nil _ (List.cons_ne_nil _ _))
  | cons d ds ih =>
    rw [skipSpaces]
    by_cases hd : d = SP
    · subst hd
      rw [if_pos rfl, ih]
      constructor
      · rintro ⟨gap, c, tl, h, hc, rfl⟩
        refine ⟨⟨SP :: gap.bytes, List.cons_ne_nil _ _, ?_⟩, c, tl, by rw [h]; rfl, hc, ?_⟩
        · intro e he
          rcases List.mem_cons.1 he with rfl | he
          · rfl
          · exact gap.all e he
        · rw [List.length_cons, Nat.add_assoc, Nat.add_comm 1]
      · rintro ⟨gap, c, tl, h, hc, rfl⟩
        obtain ⟨e, w, hgap, -, -⟩ := Word.exists_cons gap
        rw [hgap] at h
        obtain ⟨rfl, hrest⟩ := List.cons.inj h
        have hne : w ≠ [] := by
          rintro rfl
          exact hc (List.cons.inj hrest).1.symm
        refine ⟨⟨w, hne, fun f hf => gap.all f (by rw [hgap]; exact List.mem_cons_of_mem _ hf)⟩, c, tl, hrest, hc, ?_⟩
        have hlen : gap.bytes.length = 1 + w.length := by
          rw [hgap, List.length_cons, Nat.add_comm]
        rw [hlen, Nat.add_assoc]
    · rw [if_neg hd]
      constructor
      · intro h
        obtain rfl := Except.ok.inj h
        exact ⟨oneSpace, d, ds, rfl, hd, rfl⟩
      · rintro ⟨gap, c, tl, h, hc, rfl⟩
        obtain ⟨e, w, hgap, -, -⟩ := Word.exists_cons gap
        have hall := gap.all
        rw [hgap] at h hall ⊢
        obtain ⟨rfl, hrest⟩ := List.cons.inj h
        cases w with
        | nil =>
          obtain ⟨rfl, rfl⟩ := List.cons.inj hrest
          rfl
        | cons f w =>
          obtain ⟨rfl, -⟩ := List.cons.inj hrest
          exact absurd (by simpa using hall d (by simp)) hd

/-- The blanks in front of a value. -/
theorem skipBlanks_ok_iff :
    skipBlanks p bytes = .ok r ↔
      ∃ w c tl, bytes = w ++ c :: tl ∧ (∀ d ∈ w, blank d = true) ∧ blank c = false ∧ r = ⟨p + w.length, c :: tl⟩ := by
  induction bytes generalizing p with
  | nil => exact ⟨fun h => (nomatch h), fun ⟨w, c, tl, h, _⟩ => absurd h.symm (by simp)⟩
  | cons d ds ih =>
    rw [skipBlanks]
    by_cases hd : d = SP ∨ d = HT
    · rw [if_pos hd, ih]
      constructor
      · rintro ⟨w, c, tl, rfl, hw, hc, rfl⟩
        refine ⟨d :: w, c, tl, rfl, ?_, hc, by rw [List.length_cons, Nat.add_assoc, Nat.add_comm 1]⟩
        intro e he
        rcases List.mem_cons.1 he with rfl | he
        · exact blank_iff.2 hd
        · exact hw e he
      · rintro ⟨w, c, tl, h, hw, hc, rfl⟩
        cases w with
        | nil =>
          obtain ⟨rfl, -⟩ := List.cons.inj h
          rw [blank_iff.2 hd] at hc
          cases hc
        | cons e w =>
          obtain ⟨rfl, rfl⟩ := List.cons.inj h
          refine ⟨w, c, tl, rfl, fun f hf => hw f (List.mem_cons_of_mem _ hf), hc, ?_⟩
          rw [List.length_cons, Nat.add_assoc, Nat.add_comm 1]
    · rw [if_neg hd]
      constructor
      · intro h
        obtain rfl := Except.ok.inj h
        exact ⟨[], d, ds, rfl, fun e he => absurd he List.not_mem_nil, blank_false_iff.2 hd, rfl⟩
      · rintro ⟨w, c, tl, h, hw, hc, rfl⟩
        cases w with
        | nil =>
          rw [List.nil_append] at h
          rw [h]
          rfl
        | cons e w =>
          obtain ⟨rfl, -⟩ := List.cons.inj h
          exact absurd (blank_iff.1 (hw d (List.mem_cons_self ..))) hd

/-- A text and its line end. -/
theorem getTokenToEol_ok_iff (simd : Simd) {tok : Slice} :
    getTokenToEol simd ⟨p, bytes⟩ = .ok (tok, r) ↔
      ∃ (w : Text textByte) (eol : Eol) (tl : List Byte), bytes = w.bytes ++ (eol.bytes ++ tl) ∧
        tok = ⟨p, w.bytes⟩ ∧ r = ⟨p + (w.bytes ++ eol.bytes).length, tl⟩ := by
  have hsub : ∀ (w tl : List Byte), Slice.sub ⟨p, w ++ tl⟩ 0 (p + w.length - p) = ⟨p, w⟩ := by
    intro w tl
    exact upTo_append p w tl
  rw [getTokenToEol_eq, bind_ok_iff]
  constructor
  · rintro ⟨ctl, hctl, h⟩
    obtain ⟨w, c, tl, rfl, hw, -, rfl⟩ := eolLoop_ok_iff.1 hctl
    rw [foundCtl, get_cons, ok_bind, sliceFrom_cons] at h
    split_ifs at h with hCR hLF
    · obtain ⟨s, hs, h⟩ := bind_ok_iff.1 h
      obtain rfl := Except.ok.inj hs
      obtain ⟨s', hs', h⟩ := bind_ok_iff.1 h
      obtain ⟨tl', rfl, rfl⟩ := expectChar_ok_iff.1 hs'
      obtain ⟨rfl, rfl⟩ := Prod.mk.inj (Except.ok.inj h)
      refine ⟨⟨w, hw⟩, .crlf, tl', by rw [hCR]; rfl, hsub w _, ?_⟩
      simp [Eol.bytes, Nat.add_assoc]
    · obtain ⟨rfl, rfl⟩ := Prod.mk.inj (Except.ok.inj h)
      refine ⟨⟨w, hw⟩, .lf, tl, by rw [hLF]; rfl, upTo_append p w _, ?_⟩
      simp [Eol.bytes, Nat.add_assoc]
  · rintro ⟨w, eol, tl, rfl, rfl, rfl⟩
    cases eol with
    | crlf =>
      refine ⟨⟨p + w.bytes.length, CR :: LF :: tl⟩, eolLoop_ok_iff.2 ⟨w.bytes, CR, LF :: tl, rfl, w.all, rfl, rfl⟩, ?_⟩
      rw [foundCtl, get_cons, ok_bind, if_pos rfl, sliceFrom_cons, ok_bind, expectChar_cons, if_neg (not_not.2 rfl),
        ok_bind]
      refine congrArg Except.ok (Prod.ext (hsub w.bytes _) ?_)
      simp [Eol.bytes, Nat.add_assoc]
    | lf =>
      refine ⟨⟨p + w.bytes.length, LF :: tl⟩, eolLoop_ok_iff.2 ⟨w.bytes, LF, tl, rfl, w.all, rfl, rfl⟩, ?_⟩
      rw [foundCtl, get_cons, ok_bind, if_neg (by decide), if_pos rfl, sliceFrom_cons, ok_bind]
      refine congrArg Except.ok (Prod.ext (upTo_append p w.bytes _) ?_)
      simp [Eol.bytes, Nat.add_assoc]

theorem parseInt_ok_iff {mul v : Int} :
    parseInt mul ⟨p, bytes⟩ = .ok (v, r) ↔
      ∃ d tl, bytes = d :: tl ∧ isDigit d = true ∧ v = mul * digit d ∧ r = ⟨p + 1, tl⟩ := by
  cases bytes with
  | nil => exact ⟨fun h => (nomatch h), fun ⟨_, _, h, _⟩ => nomatch h⟩
  | cons c cs =>
    rw [parseInt, get_cons, ok_bind, sliceFrom_cons, ok_bind]
    constructor
    · intro h
      split_ifs at h with hc
      obtain ⟨rfl, rfl⟩ := Prod.mk.inj (Except.ok.inj h)
      exact ⟨c, cs, rfl, not_not.1 fun hd => hc (not_digit_iff.2 hd), rfl, rfl⟩
    · rintro ⟨d, tl, h, hd, rfl, rfl⟩
      obtain ⟨rfl, rfl⟩ := List.cons.inj h
      exact if_neg fun hc => not_digit_iff.1 hc hd

theorem parseInt3_ok_iff {v : Int} :
    parseInt3 ⟨p, bytes⟩ = .ok (v, r) ↔
      ∃ (code : Code) (tl : List Byte), bytes = code.bytes ++ tl ∧ v = code.value ∧ r = ⟨p + 3, tl⟩ := by
  simp only [parseInt3, bind_ok_iff, Prod.exists]
  constructor
  · rintro ⟨a, r₁, h₁, b, r₂, h₂, c, r₃, h₃, h⟩
    obtain ⟨d₁, tl₁, rfl, hd₁, rfl, rfl⟩ := parseInt_ok_iff.1 h₁
    obtain ⟨d₂, tl₂, rfl, hd₂, rfl, rfl⟩ := parseInt_ok_iff.1 h₂
    obtain ⟨d₃, tl₃, rfl, hd₃, rfl, rfl⟩ := parseInt_ok_iff.1 h₃
    obtain ⟨rfl, rfl⟩ := Prod.mk.inj (Except.ok.inj h)
    exact ⟨⟨d₁, d₂, d₃, hd₁, hd₂, hd₃⟩, tl₃, rfl, by rw [Code.value, Int.one_mul], rfl⟩
  · rintro ⟨⟨d₁, d₂, d₃, hd₁, hd₂, hd₃⟩, tl, rfl, rfl, rfl⟩
    refine ⟨_, _, parseInt_ok_iff.2 ⟨d₁, _, rfl, hd₁, rfl, rfl⟩, _, _, parseInt_ok_iff.2 ⟨d₂, _, rfl, hd₂, rfl, rfl⟩,
      _, _, parseInt_ok_iff.2 ⟨d₃, _, rfl, hd₃, rfl, rfl⟩, ?_⟩
    rw [Code.value, Int.one_mul]
    rfl

theorem expectChars_ok_iff {chs : List Byte} :
    expectChars chs ⟨p, bytes⟩ = .ok r ↔ ∃ tl, bytes = chs ++ tl ∧ r = ⟨p + chs.length, tl⟩ := by
  induction chs generalizing p bytes with
  | nil => exact ⟨fun h => ⟨bytes, rfl, (Except.ok.inj h).symm⟩, fun ⟨_, h, hr⟩ => by rw [hr, h]; rfl⟩
  | cons ch chs ih =>
    cases bytes with
    | nil => exact ⟨fun h => (nomatch h), fun ⟨_, h, _⟩ => nomatch h⟩
    | cons c cs =>
      rw [expectChars, expectCharNoCheck, get_cons, ok_bind, sliceFrom_cons, ok_bind]
      constructor
      · intro h
        split_ifs at h with hc
        · cases h
        · obtain ⟨tl, rfl, rfl⟩ := ih.1 h
          exact ⟨tl, by rw [not_not.1 hc]; rfl, by rw [List.length_cons, Nat.add_assoc, Nat.add_comm 1]⟩
      · rintro ⟨tl, h, rfl⟩
        obtain ⟨rfl, rfl⟩ := List.cons.inj h
        rw [if_neg (not_not.2 rfl), ok_bind]
        refine ih.2 ⟨tl, rfl, ?_⟩
        rw [List.length_cons, Nat.add_assoc, Nat.add_comm 1]

/-- A version, and a byte behind it. -/
theorem parseHttpVersion_ok_iff {v : Int} :
    parseHttpVersion ⟨p, bytes⟩ = .ok (v, r) ↔
      ∃ (ver : Version) (c : Byte) (tl : List Byte), bytes = ver.bytes ++ c :: tl ∧ v = digit ver.minor ∧
        r = ⟨p + ver.bytes.length, c :: tl⟩ := by
  have hseven : (ascii "HTTP/1.").length = 7 := rfl
  unfold parseHttpVersion
  constructor
  · intro h
    split_ifs at h with hlen
    · obtain ⟨s, hs, h⟩ := bind_ok_iff.1 h
      obtain ⟨tl, rfl, rfl⟩ := expectChars_ok_iff.1 hs
      obtain ⟨d, tl, rfl, hd, rfl, rfl⟩ := parseInt_ok_iff.1 h
      cases tl with
      | nil =>
        simp only [Slice.length, List.length_append, List.length_singleton, hseven] at hlen
        omega
      | cons c cs => exact ⟨⟨d, hd⟩, c, cs, by simp [Version.bytes], by rw [Int.one_mul], rfl⟩
  · rintro ⟨⟨d, hd⟩, c, tl, rfl, rfl, rfl⟩
    have hlen : ¬ (Slice.mk p (Version.bytes ⟨d, hd⟩ ++ c :: tl)).length < 9 := by
      simp only [Slice.length, Version.bytes, List.length_append, List.length_cons, List.length_nil, hseven]
      omega
    have hsplit : Version.bytes ⟨d, hd⟩ ++ c :: tl = ascii "HTTP/1." ++ d :: c :: tl := List.append_assoc _ [d] _
    rw [if_neg hlen, hsplit]
    refine bind_ok_iff.2 ⟨_, expectChars_ok_iff.2 ⟨_, rfl, rfl⟩, parseInt_ok_iff.2 ⟨d, _, rfl, hd, ?_, rfl⟩⟩
    rw [Int.one_mul]

end

/-! ## Header lines -/

/-- Trailing blanks are cut off as by `stripTrailing`. -/
theorem trimEnd_eq (value : Slice) {k : Nat} (hk : k ≤ value.length) :
    trimEnd value k = .ok ((value.bytes.take k).rdropWhile blank).length := by
  induction k with
  | zero => rfl
  | succ k ih =>
    have hlt : k < value.bytes.length := hk
    have hget : value.get k = .ok value.bytes[k] := Slice.get_ok (List.drop_eq_getElem_cons hlt)
    rw [trimEnd, hget, ok_bind, List.take_succ_eq_append_getElem hlt, List.rdropWhile_concat]
    by_cases hc : value.bytes[k] = SP ∨ value.bytes[k] = HT
    · rw [if_pos hc, if_pos (blank_iff.2 hc), ih (Nat.le_of_lt hlt)]
    · have hlen : (value.bytes.take k).length = k := List.length_take_of_le (Nat.le_of_lt hlt)
      rw [if_neg hc, if_neg (fun h => hc (blank_iff.1 h)), List.length_append, hlen, List.length_singleton]

theorem sub_stripTrailing (value : Slice) :
    value.sub 0 (value.bytes.rdropWhile blank).length = value.stripTrailing := by
  have hfront := List.rdropWhile_prefix blank (l := value.bytes)
  rw [Slice.sub, Slice.stripTrailing, List.drop_zero, Nat.sub_zero, ← List.prefix_iff_eq_take.1 hfront]
  rfl

theorem trimEnd_all (value : Slice) :
    (trimEnd value value.length >>= fun k => .ok (value.sub 0 k)) = .ok value.stripTrailing := by
  have hall : value.bytes.take value.length = value.bytes := List.take_length
  rw [trimEnd_eq value (Nat.le_refl _), hall, ok_bind, sub_stripTrailing]

theorem isToken_plain : ∀ c : Byte, isToken c = true → c ≠ CR ∧ c ≠ LF ∧ blank c = false :=
  forall_byte (by decide +kernel)

/-- A line begins with none of the bytes a line end begins with. -/
theorem Line.first (l : Line) (tl : List Byte) : ∃ c cs, l.bytes ++ tl = c :: cs ∧ c ≠ CR ∧ c ≠ LF := by
  obtain ⟨x, eol⟩ := l
  cases x with
  | named n raw =>
    obtain ⟨c, cs, hn, hc, -⟩ := Word.exists_cons n
    obtain ⟨hCR, hLF, -⟩ := isToken_plain c hc
    refine ⟨c, cs ++ (COLON :: raw.bytes ++ (eol.bytes ++ tl)), ?_, hCR, hLF⟩
    simp [Line.bytes, Content.bytes, hn]
  | continued raw start =>
    obtain ⟨c, cs, hraw, hc, -⟩ := Word.exists_cons raw
    obtain ⟨hCR, hLF⟩ := textByte_plain hc
    refine ⟨c, cs ++ (eol.bytes ++ tl), ?_, hCR, hLF⟩
    simp [Line.bytes, Content.bytes, hraw]

section

variable (simd : Simd) {num : Nat} {p : Nat} {bytes : List Byte} {r : Slice}

/-- A name, its colon and the blanks behind it. -/
theorem headerName_named {n : Word isToken} {ws tl : List Byte} {c : Byte} (hws : ∀ d ∈ ws, blank d = true)
    (hc : blank c = false) :
    headerName simd num ⟨p, n.bytes ++ COLON :: (ws ++ c :: tl)⟩ =
      .ok (some ⟨p, n.bytes⟩, ⟨p + n.bytes.length + 1 + ws.length, c :: tl⟩) := by
  obtain ⟨d, ds, hn, hd, -⟩ := Word.exists_cons n
  have hblank := blank_false_iff.1 (isToken_plain d hd).2.2
  have hget : Slice.get ⟨p, n.bytes ++ COLON :: (ws ++ c :: tl)⟩ 0 = .ok d := by
    rw [hn]
    rfl
  have htoken := (@parseToken_ok_iff p _ _ simd COLON (by decide) _).2 ⟨⟨n.bytes, n.all⟩, ws ++ c :: tl, rfl, rfl, rfl⟩
  have hlen : ¬ (Slice.mk p n.bytes).length = 0 := fun h => n.nonempty (List.length_eq_zero_iff.1 h)
  rw [headerName, hget, ok_bind, if_pos fun h => hblank h.2, htoken]
  simp only [ok_bind, if_neg hlen, sliceFrom_cons]
  exact bind_ok_iff.2 ⟨_, skipBlanks_ok_iff.2 ⟨ws, c, tl, rfl, hws, hc, rfl⟩, rfl⟩

theorem headerName_continued {c : Byte} {cs : List Byte} (h0 : num ≠ 0) (hc : blank c = true) :
    headerName simd num ⟨p, c :: cs⟩ = .ok (none, ⟨p, c :: cs⟩) := by
  rw [headerName, get_cons, ok_bind, if_neg (not_not.2 ⟨h0, blank_iff.1 hc⟩)]

theorem headerName_cases {name : Option Slice} (h : headerName simd num ⟨p, bytes⟩ = .ok (name, r)) :
    (∃ (n : Word isToken) (ws : List Byte) (c : Byte) (tl : List Byte),
      bytes = n.bytes ++ COLON :: (ws ++ c :: tl) ∧ (∀ d ∈ ws, blank d = true) ∧ blank c = false ∧
        name = some ⟨p, n.bytes⟩ ∧ r = ⟨p + n.bytes.length + 1 + ws.length, c :: tl⟩) ∨
    (∃ (c : Byte) (cs : List Byte), num ≠ 0 ∧ bytes = c :: cs ∧ blank c = true ∧ name = none ∧ r = ⟨p, bytes⟩) := by
  obtain ⟨c, hc, h⟩ := bind_ok_iff.1 h
  split_ifs at h with hcont
  · obtain ⟨rfl, rfl⟩ := Prod.mk.inj (Except.ok.inj h)
    cases bytes with
    | nil => cases hc
    | cons d ds =>
      obtain rfl := Except.ok.inj hc
      exact Or.inr ⟨d, ds, hcont.1, rfl, blank_iff.2 hcont.2, rfl, rfl⟩
  · obtain ⟨⟨tok, s⟩, htok, h⟩ := bind_ok_iff.1 h
    obtain ⟨w, tl, rfl, rfl, rfl⟩ := (parseToken_ok_iff simd (by decide)).1 htok
    simp only at h
    split_ifs at h with hlen
    rw [sliceFrom_cons, ok_bind] at h
    obtain ⟨s, hs, h⟩ := bind_ok_iff.1 h
    obtain ⟨ws, d, tl', rfl, hws, hd, rfl⟩ := skipBlanks_ok_iff.1 hs
    obtain ⟨rfl, rfl⟩ := Prod.mk.inj (Except.ok.inj h)
    exact Or.inl ⟨⟨w.bytes, fun hw => hlen (List.length_eq_zero_iff.2 hw), w.all⟩, ws, d, tl', rfl, hws, hd, rfl, rfl⟩

/-- The blanks a text begins with. -/
theorem exists_blanks (raw : List Byte) :
    ∃ ws v, raw = ws ++ v ∧ (∀ d ∈ ws, blank d = true) ∧ ∀ d ∈ v.head?, blank d = false := by
  refine ⟨raw.takeWhile blank, raw.dropWhile blank, List.takeWhile_append_dropWhile.symm,
    fun d hd => List.mem_takeWhile_imp hd, fun d hd => ?_⟩
  have hnot := List.head?_dropWhile_not blank raw
  rw [Option.mem_def.1 hd] at hnot
  simpa using hnot

/-- Leading blanks are cut off as by `stripLeading`. -/
theorem stripLeading_blanks {ws v : List Byte} (hws : ∀ d ∈ ws, blank d = true) (hv : ∀ c ∈ v.head?, blank c = false) :
    Slice.stripLeading blank ⟨p, ws ++ v⟩ = ⟨p + ws.length, v⟩ := by
  have htake : v.takeWhile blank = [] := by
    cases v with
    | nil => rfl
    | cons c cs => rw [List.takeWhile_cons, hv c rfl]; rfl
  have hdrop : v.dropWhile blank = v := by
    cases v with
    | nil => rfl
    | cons c cs => rw [List.dropWhile_cons, hv c rfl]; rfl
  rw [Slice.stripLeading, List.takeWhile_append_of_pos hws, List.dropWhile_append_of_pos hws, htake, hdrop,
    List.append_nil]

theorem parseHeader_split {buf : Slice} {header : PhrHeader} :
    parseHeader simd num buf = .ok (header, r) ↔ ∃ name s value, headerName simd num buf = .ok (name, s) ∧
      getTokenToEol simd s = .ok (value, r) ∧ header = ⟨name, value.stripTrailing⟩ := by
  simp only [parseHeader, bind_ok_iff, Prod.exists]
  constructor
  · rintro ⟨name, s, hname, value, r', hvalue, k, hk, h⟩
    obtain ⟨rfl, rfl⟩ := Prod.mk.inj (Except.ok.inj h)
    have htrim := trimEnd_all value
    rw [hk, ok_bind, Except.ok.injEq] at htrim
    exact ⟨name, s, value, hname, hvalue, by rw [htrim]⟩
  · rintro ⟨name, s, value, hname, hvalue, rfl⟩
    obtain ⟨k, hk, htrim⟩ := bind_ok_iff.1 (trimEnd_all value)
    refine ⟨name, s, hname, value, r, hvalue, k, hk, ?_⟩
    rw [Except.ok.inj htrim]

/-- A line of the grammar is read whole. -/
theorem parseHeader_line (l : Line) (hopens : num = 0 → l.content.isNamed = true) (tl : List Byte) :
    parseHeader simd num ⟨p, l.bytes ++ tl⟩ = .ok (l.header p, ⟨p + l.bytes.length, tl⟩) := by
  obtain ⟨x, eol⟩ := l
  obtain ⟨c, cs, heol, hc⟩ := Eol.exists_cons eol tl
  have hblank : blank c = false := by rcases hc with rfl | rfl <;> rfl
  rw [parseHeader_split]
  cases x with
  | named n raw =>
    obtain ⟨ws, v, hraw, hws, hv⟩ := exists_blanks raw.bytes
    have htext : ∀ d ∈ v, textByte d = true := fun d hd => raw.all d (by rw [hraw]; exact List.mem_append_right _ hd)
    obtain ⟨d, ds, hrest, hd⟩ : ∃ d ds, v ++ (eol.bytes ++ tl) = d :: ds ∧ blank d = false := by
      cases v with
      | nil => exact ⟨c, cs, heol, hblank⟩
      | cons e es => exact ⟨e, es ++ (eol.bytes ++ tl), rfl, hv e rfl⟩
    have hbytes : (Line.mk (.named n raw) eol).bytes ++ tl = n.bytes ++ COLON :: (ws ++ d :: ds) := by
      rw [← hrest]
      simp [Line.bytes, Content.bytes, hraw]
    have hvalue := (getTokenToEol_ok_iff simd (p := p + n.bytes.length + 1 + ws.length)).2
      ⟨⟨v, htext⟩, eol, tl, hrest.symm, rfl, rfl⟩
    rw [hbytes]
    refine ⟨_, _, ⟨p + n.bytes.length + 1 + ws.length, v⟩, headerName_named simd hws hd,
      hvalue.trans (congrArg Except.ok (Prod.ext rfl ?_)), ?_⟩
    · simp [Line.bytes, Content.bytes, hraw, Nat.add_assoc, Nat.add_comm 1]
    · rw [Line.header, Content.name, Content.rawValue, hraw, stripLeading_blanks hws hv]
  | continued raw start =>
    obtain ⟨d, ds, hraw, -, -⟩ := Word.exists_cons raw
    have h0 : num ≠ 0 := fun h => nomatch hopens h
    have hd : blank d = true := start d (by rw [hraw]; rfl)
    have hbytes : (Line.mk (.continued raw start) eol).bytes ++ tl = raw.bytes ++ (eol.bytes ++ tl) :=
      List.append_assoc _ _ _
    have hname : headerName simd num ⟨p, raw.bytes ++ (eol.bytes ++ tl)⟩ =
        .ok (none, ⟨p, raw.bytes ++ (eol.bytes ++ tl)⟩) := by
      rw [hraw]
      exact headerName_continued simd h0 hd
    rw [hbytes]
    exact ⟨_, _, _, hname, (getTokenToEol_ok_iff simd).2 ⟨⟨raw.bytes, raw.all⟩, eol, tl, rfl, rfl, rfl⟩, rfl⟩

theorem textByte_blanks {ws : List Byte} (hws : ∀ d ∈ ws, blank d = true) (w : Text textByte) :
    ∀ d ∈ ws ++ w.bytes, textByte d = true := by
  intro d hd
  rcases List.mem_append.1 hd with hd | hd
  · exact textByte_of_blank (hws d hd)
  · exact w.all d hd

/-- A text begins with the first of the bytes it is the beginning of. -/
theorem head_of_split {c : Byte} {cs w t : List Byte} (h : c :: cs = w ++ t) : ∀ d ∈ w.head?, d = c := by
  intro d hd
  obtain ⟨ds, rfl⟩ := List.head?_eq_some_iff.1 hd
  exact (List.cons.inj h).1.symm

/-- What is read is a line of the grammar. -/
theorem parseHeader_reads {header : PhrHeader} (h : parseHeader simd num ⟨p, bytes⟩ = .ok (header, r)) :
    ∃ (l : Line) (tl : List Byte), (num = 0 → l.content.isNamed = true) ∧ bytes = l.bytes ++ tl ∧
      header = l.header p ∧ r = ⟨p + l.bytes.length, tl⟩ := by
  obtain ⟨name, s, value, hname, hvalue, rfl⟩ := (parseHeader_split simd).1 h
  rcases headerName_cases simd hname with
    ⟨n, ws, c, tl, rfl, hws, hc, rfl, rfl⟩ | ⟨c, cs, h0, rfl, hc, rfl, rfl⟩
  · obtain ⟨w, eol, tl', hsplit, rfl, rfl⟩ := (getTokenToEol_ok_iff simd).1 hvalue
    have hfirst : ∀ d ∈ w.bytes.head?, blank d = false := fun d hd => head_of_split hsplit d hd ▸ hc
    refine ⟨⟨.named n ⟨ws ++ w.bytes, textByte_blanks hws w⟩, eol⟩, tl', fun _ => rfl, ?_, ?_, ?_⟩
    · rw [hsplit]
      simp [Line.bytes, Content.bytes]
    · rw [Line.header, Content.name, Content.rawValue, stripLeading_blanks hws hfirst]
    · simp [Line.bytes, Content.bytes, Nat.add_assoc, Nat.add_comm 1]
  · obtain ⟨w, eol, tl', hsplit, rfl, rfl⟩ := (getTokenToEol_ok_iff simd).1 hvalue
    have hne : w.bytes ≠ [] := by
      intro hw
      obtain ⟨d, ds, heol, hd⟩ := Eol.exists_cons eol tl'
      rw [hw, List.nil_append, heol] at hsplit
      obtain ⟨rfl, -⟩ := List.cons.inj hsplit
      rcases hd with rfl | rfl <;> cases hc
    have hstart : ∀ d ∈ w.bytes.head?, blank d = true := fun d hd => head_of_split hsplit d hd ▸ hc
    refine ⟨⟨.continued ⟨w.bytes, hne, w.all⟩ hstart, eol⟩, tl', fun h => absurd h h0, ?_, rfl, rfl⟩
    rw [hsplit]
    exact (List.append_assoc _ _ _).symm

end

end Httparsed.Pico
