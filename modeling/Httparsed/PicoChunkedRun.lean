import Httparsed.PicoChunked

/-!
# Decoding in place and piece by piece (picohttpparser.c:543-656)

What a call of `phr_decode_chunked` does to the buffer is what `chunkedStep` does byte by byte: the front of the
buffer is the output so far, and behind `src` it is still what it was (`Chunking.At`). Each case of the `switch`
is a stretch of that run (`Does`), and the loop a sequence of such stretches.

| here | there |
| --- | --- |
| `phrDecodeChunked_run` | a call is a run: no access is out of bounds, no `size_t` wraps, and the loop ends |
| `decodePieces` | the caller of picohttpparser.h:69-77, who calls again with newly arrived data while the answer is `-2` |
| `phr_decode_chunked_pieces` | it does not matter where the pieces are cut |
-/

namespace Httparsed.Pico

open Transducer

/-! ## The buffer during a call -/

/-- The data is in front of `dst`, and behind `src` nothing has changed. -/
structure Chunking.At (w : Chunking) (out rest : List Byte) : Prop where
  ok : w.decoder.Ok
  dst_le : w.dst ≤ w.src
  src_le : w.src ≤ w.buf.length
  out_eq : w.buf.take w.dst = out
  rest_eq : w.buf.drop w.src = rest

section

variable {w : Chunking} {out pre post : List Byte}

theorem Chunking.At.length (h : w.At out post) : w.buf.length = w.src + post.length := by
  have hlen := congrArg List.length h.rest_eq
  rw [List.length_drop] at hlen
  have := h.src_le
  omega

theorem Chunking.At.rest (h : w.At out post) : w.rest = .ok post := by
  rw [Chunking.rest, if_pos h.src_le, h.rest_eq]

theorem Chunking.At.get {c : Byte} (h : w.At out (c :: post)) : w.get = .ok c := by
  have hget : w.buf[w.src]? = some c := by
    rw [← List.head?_drop, h.rest_eq]
    rfl
  rw [Chunking.get, hget]

theorem Chunking.At.left (h : w.At out post) : sizeSub w.buf.length w.src = .ok post.length := by
  rw [sizeSub_ok h.src_le, h.length, Nat.add_sub_cancel_left]

/-- Bytes that are skipped. -/
theorem Chunking.At.skip (h : w.At out (pre ++ post)) {d : ChunkedDecoder} (hd : d.Ok) :
    (⟨w.buf, w.dst, w.src + pre.length, d⟩ : Chunking).At out post where
  ok := hd
  dst_le := Nat.le_trans h.dst_le (Nat.le_add_right _ _)
  src_le := by
    have := h.length
    rw [List.length_append] at this
    show w.src + pre.length ≤ w.buf.length
    omega
  out_eq := h.out_eq
  rest_eq := by
    show w.buf.drop (w.src + pre.length) = post
    rw [← List.drop_drop, h.rest_eq, List.drop_left]

/-- `++src;` -/
theorem Chunking.At.next {c : Byte} (h : w.At out (c :: post)) {s : ChunkedState}
    (hd : (w.decoder.goto w.decoder.bytes_left_in_chunk s).Ok) : (w.next s).At out post := by
  have hsplit : w.At out ([c] ++ post) := h
  exact hsplit.skip hd

/-- `memmove` moves bytes that have not been overwritten. -/
theorem Chunking.At.memmove (h : w.At out (pre ++ post)) : ∃ buf, w.memmove pre.length = .ok buf ∧
    buf.length = w.buf.length ∧ buf.take (w.dst + pre.length) = out ++ pre ∧
      buf.drop (w.src + pre.length) = post := by
  have hlen := h.length
  rw [List.length_append] at hlen
  have hdst := h.dst_le
  have hpre : (w.buf.drop w.src).take pre.length = pre := by rw [h.rest_eq, List.take_left]
  have hpost : w.buf.drop (w.src + pre.length) = post := by rw [← List.drop_drop, h.rest_eq, List.drop_left]
  unfold Chunking.memmove
  by_cases heq : w.dst = w.src
  · refine ⟨w.buf, if_pos heq, rfl, ?_, hpost⟩
    rw [List.take_add, h.out_eq, heq, hpre]
  · rw [if_neg heq, if_pos (by omega)]
    have hfront : (w.buf.take w.dst ++ (w.buf.drop w.src).take pre.length).length = w.dst + pre.length := by
      rw [List.length_append, hpre, List.length_take, Nat.min_eq_left (by omega)]
    refine ⟨_, rfl, ?_, ?_, ?_⟩
    · rw [List.length_append, hfront, List.length_drop]
      omega
    · rw [List.take_left' hfront, h.out_eq, hpre]
    · obtain ⟨k, hk⟩ : ∃ k, w.src + pre.length = w.dst + pre.length + k := ⟨w.src - w.dst, by omega⟩
      rw [hk, ← List.drop_drop, List.drop_left' hfront, List.drop_drop, ← hk, hpost]

theorem Chunking.At.move (h : w.At out (pre ++ post)) : ∃ w', w.move pre.length = .ok w' ∧ w'.decoder = w.decoder ∧
    w'.At (out ++ pre) post := by
  obtain ⟨buf, hbuf, hlen, htake, hdrop⟩ := h.memmove
  have hsrc := h.length
  rw [List.length_append] at hsrc
  refine ⟨⟨buf, w.dst + pre.length, w.src + pre.length, w.decoder⟩, ?_, rfl, h.ok, ?_, ?_, htake, hdrop⟩
  · rw [Chunking.move, hbuf]
    rfl
  · exact Nat.add_le_add_right h.dst_le _
  · show w.src + pre.length ≤ buf.length
    omega

end

/-! ## A case is a stretch of the run -/

/-- How a case that starts with `n` bytes left and `out` in the buffer makes progress on the run `r`; if it falls
through, then into `next`. -/
def Flow.Meets (out : List Byte) (n : Nat) (r : List Byte × Outcome ChunkedDecoder Byte (Except Unit Unit))
    (next : Option ChunkedState) : Flow → Prop
  | .fallthru w => next = some w.decoder.state ∧
      ∃ o rest, w.At (out ++ o) rest ∧ rest.length ≤ n ∧ r = prepend o (decode w.decoder rest)
  | .again w => ∃ o rest, w.At (out ++ o) rest ∧ rest.length < n ∧ r = prepend o (decode w.decoder rest)
  | .complete w => ∃ o rest, w.At (out ++ o) rest ∧ r = (o, .halted (.ok ()) rest)
  | .exit ret w => (ret = -2 ∧ ∃ o, w.At (out ++ o) [] ∧ r = (o, .live w.decoder)) ∨
      (ret = -1 ∧ ∃ o rest rest', w.At (out ++ o) rest ∧ r = (o, .halted (.error ()) rest'))

/-- A case, or some cases in a row. -/
def Does (x : Except Stop Flow) (out : List Byte) (n : Nat)
    (r : List Byte × Outcome ChunkedDecoder Byte (Except Unit Unit)) (next : Option ChunkedState) : Prop :=
  ∃ f, x = .ok f ∧ f.Meets out n r next

section

variable {x : Except Stop Flow} {out o rest : List Byte} {n m : Nat} {w : Chunking}
  {r : List Byte × Outcome ChunkedDecoder Byte (Except Unit Unit)} {next next' : Option ChunkedState}

theorem Does.ok {f : Flow} (h : f.Meets out n r next) : Does (.ok f) out n r next := ⟨f, rfl, h⟩

/-- What was done before. -/
theorem Does.prepend (h : Does x (out ++ o) m r next) (hm : m ≤ n) : Does x out n (prepend o r) next := by
  obtain ⟨f, rfl, hf⟩ := h
  refine .ok ?_
  cases f with
  | fallthru w =>
    obtain ⟨hnext, o', rest, hat, hlen, rfl⟩ := hf
    refine ⟨hnext, o ++ o', rest, ?_, by omega, prepend_prepend o o' _⟩
    rwa [← List.append_assoc]
  | again w =>
    obtain ⟨o', rest, hat, hlen, rfl⟩ := hf
    refine ⟨o ++ o', rest, ?_, by omega, prepend_prepend o o' _⟩
    rwa [← List.append_assoc]
  | complete w =>
    obtain ⟨o', rest, hat, rfl⟩ := hf
    refine ⟨o ++ o', rest, ?_, rfl⟩
    rwa [← List.append_assoc]
  | exit ret w =>
    rcases hf with ⟨hret, o', hat, rfl⟩ | ⟨hret, o', rest, rest', hat, rfl⟩
    · refine Or.inl ⟨hret, o ++ o', ?_, rfl⟩
      rwa [← List.append_assoc]
    · refine Or.inr ⟨hret, o ++ o', rest, rest', ?_, rfl⟩
      rwa [← List.append_assoc]

theorem Does.weaken (h : Does x out m r next) (hm : m ≤ n) : Does x out n r next :=
  Does.prepend (o := []) (by rwa [List.append_nil]) hm

/-- **One case after another.** -/
theorem Does.into {s : ChunkedState} {case : Chunking → Except Stop Flow} (h : Does x out n r (some s))
    (hcase : ∀ w out rest, w.At out rest → w.decoder.state = s →
      Does (case w) out rest.length (decode w.decoder rest) next') :
    Does (x >>= Flow.into case) out n r next' := by
  obtain ⟨f, rfl, hf⟩ := h
  cases f with
  | fallthru w =>
    obtain ⟨hnext, o, rest, hat, hlen, rfl⟩ := hf
    exact (hcase w _ _ hat (Option.some.inj hnext).symm).prepend hlen
  | again w => exact .ok hf
  | complete w => exact .ok hf
  | exit ret w => exact .ok hf

end

/-! ## Loops -/

/-- Where a loop stops. -/
theorem seek_cases (stop : Byte → Bool) (src : Nat) (b : List Byte) :
    ∃ pre post, b = pre ++ post ∧ (∀ c ∈ pre, stop c = false) ∧
      ((post = [] ∧ seek stop src b = (false, src + pre.length)) ∨
        ∃ c cs, post = c :: cs ∧ stop c = true ∧ seek stop src b = (true, src + pre.length)) := by
  induction b generalizing src with
  | nil => exact ⟨[], [], rfl, by simp, Or.inl ⟨rfl, rfl⟩⟩
  | cons c b ih =>
    by_cases hc : stop c = true
    · refine ⟨[], c :: b, rfl, by simp, Or.inr ⟨c, b, rfl, hc, ?_⟩⟩
      rw [seek, if_pos hc]
      rfl
    · obtain ⟨pre, post, rfl, hpre, hend⟩ := ih (src + 1)
      have hseek : seek stop src (c :: (pre ++ post)) = seek stop (src + 1) (pre ++ post) := by rw [seek, if_neg hc]
      have hlen : src + 1 + pre.length = src + (c :: pre).length := by
        rw [List.length_cons]
        omega
      refine ⟨c :: pre, post, rfl, ?_, ?_⟩
      · intro x hx
        rcases List.mem_cons.1 hx with rfl | hx
        · exact Bool.eq_false_iff.2 hc
        · exact hpre x hx
      · rw [hseek, ← hlen]
        exact hend

/-- A loop over bytes that leave the decoder as it is. -/
theorem seek_does {w : Chunking} {out rest : List Byte} {stop : Byte → Bool} {found : Chunking → Except Stop Flow}
    {next : Option ChunkedState} (hat : w.At out rest)
    (hstay : ∀ c, stop c = false → chunkedStep 0 w.decoder c = ([], .more w.decoder))
    (hfound : ∀ w' c cs, w'.At out (c :: cs) → w'.decoder = w.decoder → stop c = true →
      Does (found w') out (c :: cs).length (decode w'.decoder (c :: cs)) next) :
    Does (w.seek stop found) out rest.length (decode w.decoder rest) next := by
  obtain ⟨pre, post, rfl, hpre, hend⟩ := seek_cases stop w.src rest
  have hignore : decode w.decoder (pre ++ post) = decode w.decoder post :=
    decode_ignore (fun c hc => hstay c (hpre c hc)) post
  have hat' := hat.skip hat.ok
  rw [Chunking.seek, hat.rest, hignore]
  rcases hend with ⟨rfl, hseek⟩ | ⟨c, cs, rfl, hc, hseek⟩
  · rw [ok_bind, hseek]
    refine Does.ok (Or.inl ⟨rfl, [], ?_, rfl⟩)
    rwa [List.append_nil]
  · rw [ok_bind, hseek]
    have hdoes := hfound _ c cs hat' rfl hc
    exact Does.weaken hdoes (by simp)

/-- Where the loop over the digits of a size stops, and with which decoder. -/
theorem sizeLoop_cases {d : ChunkedDecoder} (hok : d.Ok) (hd : d.state = .inChunkSize) (src : Nat) (b : List Byte) :
    ∃ pre post d', b = pre ++ post ∧ d'.Ok ∧ d'.state = .inChunkSize ∧ decode d b = decode d' post ∧
      ((post = [] ∧ sizeLoop d src b = (some (-2), src + pre.length, d')) ∨
        (∃ c cs, post = c :: cs ∧ chunkedStep 0 d' c = ([], .halt (.error ())) ∧
          sizeLoop d src b = (some (-1), src + pre.length, d')) ∨
        ∃ c cs, post = c :: cs ∧ decodeHex c = none ∧ d'.hex_count ≠ 0 ∧
          sizeLoop d src b = (none, src + pre.length, d')) := by
  induction b generalizing d src with
  | nil => exact ⟨[], [], d, rfl, hok, hd, rfl, Or.inl ⟨rfl, rfl⟩⟩
  | cons c b ih =>
    cases hc : decodeHex c with
    | none =>
      refine ⟨[], c :: b, d, rfl, hok, hd, rfl, Or.inr ?_⟩
      by_cases hk : d.hex_count = 0
      · refine Or.inl ⟨c, b, rfl, ?_, ?_⟩
        · simp only [chunkedStep, hd, hc, if_pos hk]
        · rw [sizeLoop, hc]
          exact if_pos hk
      · refine Or.inr ⟨c, b, rfl, hc, hk, ?_⟩
        rw [sizeLoop, hc]
        exact if_neg hk
    | some v =>
      by_cases hk : d.hex_count = 16
      · refine ⟨[], c :: b, d, rfl, hok, hd, rfl, Or.inr (Or.inl ⟨c, b, rfl, ?_, ?_⟩)⟩
        · simp only [chunkedStep, hd, hc, if_pos hk]
        · rw [sizeLoop, hc]
          exact if_pos hk
      · have hok' := hok.digit hd hk (decodeHex_lt hc)
        have hfits : (d.bytes_left_in_chunk * 16 + v) % 2 ^ 64 = d.bytes_left_in_chunk * 16 + v := by
          refine Nat.mod_eq_of_lt (Nat.lt_of_lt_of_le (hok'.value rfl) ?_)
          calc 16 ^ (d.hex_count + 1) ≤ 16 ^ 16 := Nat.pow_le_pow_right (by decide) hok'.digits
            _ = 2 ^ 64 := by decide
        have hstep : chunkedStep 0 d c =
            ([], .more ⟨d.bytes_left_in_chunk * 16 + v, d.consume_trailer, d.hex_count + 1, .inChunkSize⟩) := by
          simp only [chunkedStep, hd, hc, if_neg hk]
        have hloop : sizeLoop d src (c :: b) =
              sizeLoop ⟨d.bytes_left_in_chunk * 16 + v, d.consume_trailer, d.hex_count + 1, .inChunkSize⟩
                (src + 1) b := by
          rw [sizeLoop, hc]
          simp only [if_neg hk, hfits, hd]
        obtain ⟨pre, post, d', rfl, hok'', hd', hdecode, hend⟩ := ih hok' rfl (src + 1)
        have hlen : src + 1 + pre.length = src + (c :: pre).length := by
          rw [List.length_cons]
          omega
        refine ⟨c :: pre, post, d', rfl, hok'', hd', ?_, ?_⟩
        · rw [decode_more hstep, hdecode, prepend_nil]
        · rw [hloop, ← hlen]
          exact hend

/-! ## The cases -/

section

variable {w : Chunking} {out rest : List Byte}

theorem inChunkSize_does (hat : w.At out rest) (hs : w.decoder.state = .inChunkSize) :
    Does (inChunkSize w) out rest.length (decode w.decoder rest) (some .inChunkExt) := by
  obtain ⟨pre, post, d', rfl, hok, hd, hdecode, hend⟩ := sizeLoop_cases hat.ok hs w.src rest
  have hat' := hat.skip hok
  rw [inChunkSize, hat.rest, ok_bind, hdecode]
  rcases hend with ⟨rfl, hloop⟩ | ⟨c, cs, rfl, hstep, hloop⟩ | ⟨c, cs, rfl, hc, hk, hloop⟩
  · rw [hloop]
    refine Does.ok (Or.inl ⟨rfl, [], ?_, rfl⟩)
    rwa [List.append_nil]
  · rw [hloop]
    refine Does.ok (Or.inr ⟨rfl, [], c :: cs, cs, ?_, decode_halt hstep cs⟩)
    rwa [List.append_nil]
  · rw [hloop]
    refine Does.ok ⟨rfl, [], c :: cs, ?_, by simp, ?_⟩
    · rw [List.append_nil]
      exact hat.skip ChunkedDecoder.Ok.ext
    · refine decode_congr ?_ cs
      simp only [chunkedStep, hd, hc, if_neg hk]

theorem inChunkExt_does (hat : w.At out rest) (hs : w.decoder.state = .inChunkExt) :
    Does (inChunkExt w) out rest.length (decode w.decoder rest) (some .inChunkData) := by
  have hstep : ∀ c, chunkedStep 0 w.decoder c = stepChunkExt w.decoder c := by
    intro c
    simp only [chunkedStep, hs]
  refine seek_does hat ?_ ?_
  · intro c hc
    have hne : c ≠ LF := by simpa using hc
    rw [hstep, stepChunkExt, if_pos hne, ← hs]
    rfl
  · rintro w' c cs hat' hd hc
    obtain rfl : c = LF := by simpa using hc
    have hne : w'.decoder.state ≠ .inChunkSize := by
      rw [hd, hs]
      rintro ⟨⟩
    rw [← hd] at hstep
    by_cases hleft : w'.decoder.bytes_left_in_chunk = 0
    · rw [if_pos hleft]
      by_cases ht : w'.decoder.consume_trailer = true
      · rw [if_pos ht]
        refine Does.ok ⟨[], cs, ?_, by simp, ?_⟩
        · rw [List.append_nil]
          exact hat'.next (hat'.ok.goto hne (by simp) (by simp) (by simp))
        · refine decode_more ?_ cs
          rw [hstep, stepChunkExt, if_neg (by simp), if_pos hleft, if_pos ht]
          rfl
      · rw [if_neg ht]
        refine Does.ok ⟨[], cs, ?_, ?_⟩
        · rw [List.append_nil]
          exact hat'.next (hat'.ok.goto hne (by simp) (by simp) (by simp))
        · refine decode_halt ?_ cs
          rw [hstep, stepChunkExt, if_neg (by simp), if_pos hleft, if_neg ht]
    · rw [if_neg hleft]
      refine Does.ok ⟨rfl, [], cs, ?_, by simp, ?_⟩
      · rw [List.append_nil]
        exact hat'.next (hat'.ok.goto hne (by simp) (fun _ => Nat.pos_of_ne_zero hleft) (by simp))
      · refine decode_more ?_ cs
        rw [hstep, stepChunkExt, if_neg (by simp), if_neg hleft]
        rfl

theorem inChunkData_does (hat : w.At out rest) (hs : w.decoder.state = .inChunkData) :
    Does (inChunkData w) out rest.length (decode w.decoder rest) (some .inChunkCrlf) := by
  have hne : w.decoder.state ≠ .inChunkSize := by
    rw [hs]
    rintro ⟨⟩
  have hpos := hat.ok.data hs
  rw [inChunkData, hat.left, ok_bind]
  by_cases hlt : rest.length < w.decoder.bytes_left_in_chunk
  · rw [if_pos hlt]
    have hall : w.At out (rest ++ []) := by rwa [List.append_nil]
    obtain ⟨w', hmove, hd, hat'⟩ := hall.move
    have hdecode := decode_data hs rest hlt []
    rw [List.append_nil, decode_nil] at hdecode
    rw [hmove, ok_bind, hd, sizeSub_ok (Nat.le_of_lt hlt), ok_bind, hdecode]
    refine Does.ok (Or.inl ⟨rfl, rest, ⟨?_, hat'.dst_le, hat'.src_le, hat'.out_eq, hat'.rest_eq⟩, ?_⟩)
    · refine hat.ok.goto hne (by simp) (fun _ => ?_) (by simp)
      omega
    · simp [prepend]
  · rw [if_neg hlt]
    obtain ⟨pre, post, rfl, hpre⟩ : ∃ pre post, rest = pre ++ post ∧ pre.length = w.decoder.bytes_left_in_chunk :=
      ⟨rest.take w.decoder.bytes_left_in_chunk, rest.drop w.decoder.bytes_left_in_chunk,
        (List.take_append_drop _ _).symm, by rw [List.length_take, Nat.min_eq_left (by omega)]⟩
    obtain ⟨w', hmove, hd, hat'⟩ := hat.move
    rw [← hpre, hmove, ok_bind, hd]
    refine Does.ok ⟨rfl, pre, post, ⟨?_, hat'.dst_le, hat'.src_le, hat'.out_eq, hat'.rest_eq⟩, by simp, ?_⟩
    · exact hat.ok.goto hne (by simp) (by simp) fun _ => rfl
    · exact decode_chunkEnd hs hpos hpre post

theorem inChunkCrlf_does (hat : w.At out rest) (hs : w.decoder.state = .inChunkCrlf) :
    Does (inChunkCrlf w) out rest.length (decode w.decoder rest) none := by
  refine seek_does hat ?_ ?_
  · intro c hc
    obtain rfl : c = CR := by simpa using hc
    simp only [chunkedStep, hs, if_pos]
  · rintro w' c cs hat' hd hc
    have hCR : c ≠ CR := by simpa using hc
    have hne : w'.decoder.state ≠ .inChunkSize := by
      rw [hd, hs]
      rintro ⟨⟩
    have hs' : w'.decoder.state = .inChunkCrlf := by rw [hd, hs]
    rw [hat'.get, ok_bind]
    by_cases hLF : c = LF
    · rw [if_neg (not_not.2 hLF)]
      refine Does.ok ⟨[], cs, ?_, by simp, ?_⟩
      · rw [List.append_nil]
        exact hat'.next (hat'.ok.goto hne (fun _ => hat'.ok.crlf hs') (by simp) (by simp))
      · refine decode_more ?_ cs
        simp only [chunkedStep, hs', if_neg hCR, if_pos hLF]
        rfl
    · rw [if_pos hLF]
      refine Does.ok (Or.inr ⟨rfl, [], c :: cs, cs, ?_, ?_⟩)
      · rwa [List.append_nil]
      · refine decode_halt ?_ cs
        simp only [chunkedStep, hs', if_neg hCR, if_neg hLF]

theorem inTrailersLineHead_does (hat : w.At out rest) (hs : w.decoder.state = .inTrailersLineHead) :
    Does (inTrailersLineHead w) out rest.length (decode w.decoder rest) (some .inTrailersLineMiddle) := by
  refine seek_does hat ?_ ?_
  · intro c hc
    obtain rfl : c = CR := by simpa using hc
    simp only [chunkedStep, hs, if_pos]
  · rintro w' c cs hat' hd hc
    have hCR : c ≠ CR := by simpa using hc
    have hne : w'.decoder.state ≠ .inChunkSize := by
      rw [hd, hs]
      rintro ⟨⟩
    have hs' : w'.decoder.state = .inTrailersLineHead := by rw [hd, hs]
    rw [hat'.get, ok_bind]
    by_cases hLF : c = LF
    · rw [if_pos hLF]
      refine Does.ok ⟨[], cs, ?_, ?_⟩
      · rw [List.append_nil]
        exact hat'.next (hat'.ok.goto hne (by simp) (by simp) (by simp))
      · refine decode_halt ?_ cs
        simp only [chunkedStep, hs', if_neg hCR, if_pos hLF]
    · rw [if_neg hLF]
      refine Does.ok ⟨rfl, [], cs, ?_, by simp, ?_⟩
      · rw [List.append_nil]
        exact hat'.next (hat'.ok.goto hne (by simp) (by simp) (by simp))
      · refine decode_more ?_ cs
        simp only [chunkedStep, hs', if_neg hCR, if_neg hLF]
        rfl

theorem inTrailersLineMiddle_does (hat : w.At out rest) (hs : w.decoder.state = .inTrailersLineMiddle) :
    Does (inTrailersLineMiddle w) out rest.length (decode w.decoder rest) none := by
  refine seek_does hat ?_ ?_
  · intro c hc
    have hne : c ≠ LF := by simpa using hc
    simp only [chunkedStep, hs, if_neg hne]
  · rintro w' c cs hat' hd hc
    obtain rfl : c = LF := by simpa using hc
    have hne : w'.decoder.state ≠ .inChunkSize := by
      rw [hd, hs]
      rintro ⟨⟩
    have hs' : w'.decoder.state = .inTrailersLineMiddle := by rw [hd, hs]
    refine Does.ok ⟨[], cs, ?_, by simp, ?_⟩
    · rw [List.append_nil]
      exact hat'.next (hat'.ok.goto hne (by simp) (by simp) (by simp))
    · refine decode_more ?_ cs
      simp only [chunkedStep, hs', if_pos]
      rfl

/-- **One turn of the loop.** -/
theorem switch_does (hat : w.At out rest) : Does (switch w) out rest.length (decode w.decoder rest) none := by
  have hcrlf : ∀ {x : Except Stop Flow} {out : List Byte} {n : Nat}
      {r : List Byte × Outcome ChunkedDecoder Byte (Except Unit Unit)}, Does x out n r (some .inChunkCrlf) →
        Does (x >>= Flow.into inChunkCrlf) out n r none := fun h => h.into fun _ _ _ => inChunkCrlf_does
  have hdata : ∀ {x : Except Stop Flow} {out : List Byte} {n : Nat}
      {r : List Byte × Outcome ChunkedDecoder Byte (Except Unit Unit)}, Does x out n r (some .inChunkData) →
        Does (x >>= Flow.into inChunkData >>= Flow.into inChunkCrlf) out n r none :=
    fun h => hcrlf (h.into fun _ _ _ => inChunkData_does)
  unfold switch
  cases hs : w.decoder.state with
  | inChunkSize => exact hdata ((inChunkSize_does hat hs).into fun _ _ _ => inChunkExt_does)
  | inChunkExt => exact hdata (inChunkExt_does hat hs)
  | inChunkData => exact hcrlf (inChunkData_does hat hs)
  | inChunkCrlf => exact inChunkCrlf_does hat hs
  | inTrailersLineHead => exact (inTrailersLineHead_does hat hs).into fun _ _ _ => inTrailersLineMiddle_does
  | inTrailersLineMiddle => exact inTrailersLineMiddle_does hat hs

end

/-! ## A call is a run -/

/-- What the loop has come to, when it started with `out` in the buffer. -/
def Came (out : List Byte) (ret : Int) (w : Chunking)
    (r : List Byte × Outcome ChunkedDecoder Byte (Except Unit Unit)) : Prop :=
  ∃ o rest, w.At (out ++ o) rest ∧
    ((ret = -2 ∧ rest = [] ∧ r = (o, .live w.decoder)) ∨ (ret = -1 ∧ ∃ rest', r = (o, .halted (.error ()) rest')) ∨
      (ret = ssize rest.length ∧ r = (o, .halted (.ok ()) rest)))

theorem Came.prepend {out o : List Byte} {ret : Int} {w : Chunking}
    {r : List Byte × Outcome ChunkedDecoder Byte (Except Unit Unit)} (h : Came (out ++ o) ret w r) :
    Came out ret w (prepend o r) := by
  obtain ⟨o', rest, hat, hend⟩ := h
  refine ⟨o ++ o', rest, ?_, ?_⟩
  · rwa [← List.append_assoc]
  · rcases hend with ⟨hret, hrest, rfl⟩ | ⟨hret, rest', rfl⟩ | ⟨hret, rfl⟩
    · exact Or.inl ⟨hret, hrest, rfl⟩
    · exact Or.inr (Or.inl ⟨hret, rest', rfl⟩)
    · exact Or.inr (Or.inr ⟨hret, rfl⟩)

/-- The loop ends, since every turn but the last reads on. -/
theorem decodeLoop_run {fuel : Nat} {w : Chunking} {out rest : List Byte} (hat : w.At out rest)
    (hfuel : rest.length < fuel) :
    ∃ ret w', decodeLoop fuel w = .ok (ret, w') ∧ Came out ret w' (decode w.decoder rest) := by
  induction fuel generalizing w out rest with
  | zero => cases hfuel
  | succ fuel ih =>
    obtain ⟨f, hf, hmeets⟩ := switch_does hat
    rw [decodeLoop, hf, ok_bind]
    cases f with
    | fallthru w' => cases hmeets.1
    | again w' =>
      obtain ⟨o, rest', hat', hlen, hr⟩ := hmeets
      obtain ⟨ret, w'', hloop, hcame⟩ := ih hat' (by omega)
      refine ⟨ret, w'', hloop, ?_⟩
      rw [hr]
      exact hcame.prepend
    | complete w' =>
      obtain ⟨o, rest', hat', hr⟩ := hmeets
      refine ⟨ssize rest'.length, w', ?_, o, rest', hat', Or.inr (Or.inr ⟨rfl, hr⟩)⟩
      simp only [hat'.left, ok_bind]
    | exit ret w' =>
      refine ⟨ret, w', rfl, ?_⟩
      rcases hmeets with ⟨hret, o, hat', hr⟩ | ⟨hret, o, rest', rest'', hat', hr⟩
      · exact ⟨o, [], hat', Or.inl ⟨hret, rfl, hr⟩⟩
      · exact ⟨o, rest', hat', Or.inr (Or.inl ⟨hret, rest'', hr⟩)⟩

/-- What a call leaves behind when the run comes to `r`. -/
def PhrChunked.Reports (c : PhrChunked) (o : List Byte) : Outcome ChunkedDecoder Byte (Except Unit Unit) → Prop
  | .live d => c.ret = -2 ∧ c.decoder = d ∧ c.buf.take c.bufsz = o
  | .halted (.error _) _ => c.ret = -1 ∧ c.buf.take c.bufsz = o
  | .halted (.ok _) rest => c.ret = ssize rest.length ∧ c.buf.take c.bufsz = o ∧
      (c.buf.drop c.bufsz).take rest.length = rest

/-- **A call does what the decoder does byte by byte**: the data it has decoded stands at the front of the buffer,
and behind it the octets left undecoded. -/
theorem phrDecodeChunked_run {d : ChunkedDecoder} (hd : d.Ok) (b : List Byte) :
    ∃ c, phrDecodeChunked d b = .ok c ∧ c.decoder.Ok ∧ c.Reports (decode d b).1 (decode d b).2 := by
  have hstart : (⟨b, 0, 0, d⟩ : Chunking).At [] b := ⟨hd, Nat.le_refl _, Nat.zero_le _, rfl, rfl⟩
  obtain ⟨ret, w, hloop, o, rest, hat, hend⟩ := decodeLoop_run hstart (Nat.lt_succ_self _)
  have hall : w.At ([] ++ o) (rest ++ []) := by rwa [List.append_nil]
  obtain ⟨buf, hbuf, -, htake, -⟩ := hall.memmove
  have hlen : ([] ++ o).length = w.dst := by
    rw [← hat.out_eq, List.length_take, Nat.min_eq_left (Nat.le_trans hat.dst_le hat.src_le)]
  have hout : buf.take w.dst = o := by
    have hfront := congrArg (List.take w.dst) htake
    rwa [List.take_take, Nat.min_eq_left (Nat.le_add_right _ _), List.take_left' hlen] at hfront
  have hleft : (buf.drop w.dst).take rest.length = rest := by
    have hback := congrArg (List.drop w.dst) htake
    rwa [List.drop_take, List.drop_left' hlen, Nat.add_sub_cancel_left] at hback
  have hrun : decode d b = decode (⟨b, 0, 0, d⟩ : Chunking).decoder b := rfl
  refine ⟨⟨ret, w.decoder, buf, w.dst⟩, ?_, hat.ok, ?_⟩
  · simp only [phrDecodeChunked, hloop, ok_bind, hat.left, hbuf]
  · rcases hend with ⟨hret, rfl, hr⟩ | ⟨hret, rest', hr⟩ | ⟨hret, hr⟩
    · rw [hrun, hr]
      exact ⟨hret, rfl, hout⟩
    · rw [hrun, hr]
      exact ⟨hret, hout⟩
    · rw [hrun, hr]
      exact ⟨hret, hout, hleft⟩

/-! ## Piece by piece -/

/-- What has become of a body: more is needed by this decoder, it is none, or it is complete and `left` is behind it. -/
inductive ChunkedEnd where
  | incomplete (decoder : ChunkedDecoder)
  | failed
  | complete (left : List Byte)
  deriving DecidableEq, Repr

/-- Call the decoder on one piece after the other while it answers `-2`, and collect the data. -/
def decodePieces : ChunkedDecoder → List (List Byte) → Except Stop (List Byte × ChunkedEnd)
  | decoder, [] => .ok ([], .incomplete decoder)
  | decoder, piece :: pieces => do
    let c ← phrDecodeChunked decoder piece
    let data := c.buf.take c.bufsz
    if c.ret = -2 then do
      let (more, e) ← decodePieces c.decoder pieces
      .ok (data ++ more, e)
    else if c.ret < 0 then .ok (data, .failed)
    else .ok (data, .complete ((c.buf.drop c.bufsz).take c.ret.toNat ++ pieces.flatten))

/-- The same, read off the run. -/
def chunkedEnd : Outcome ChunkedDecoder Byte (Except Unit Unit) → ChunkedEnd
  | .live d => .incomplete d
  | .halted (.error _) _ => .failed
  | .halted (.ok _) rest => .complete rest

theorem ssize_ok {n : Nat} (h : n < 2 ^ 63) : ssize n = n := by
  unfold ssize
  omega

theorem chunkedEnd_incomplete {r : Outcome ChunkedDecoder Byte (Except Unit Unit)} {d : ChunkedDecoder} :
    chunkedEnd r = .incomplete d ↔ r = .live d := by
  rcases r with d' | ⟨e | u, rest⟩ <;> simp [chunkedEnd]

theorem chunkedEnd_complete {r : Outcome ChunkedDecoder Byte (Except Unit Unit)} {left : List Byte} :
    chunkedEnd r = .complete left ↔ r = .halted (.ok ()) left := by
  rcases r with d' | ⟨e | u, rest⟩ <;> simp [chunkedEnd]

/-- **Pieces are decoded like the bytes they are made of.** -/
theorem decodePieces_run {d : ChunkedDecoder} (hd : d.Ok) {pieces : List (List Byte)}
    (hlen : ∀ x ∈ pieces, x.length < 2 ^ 63) :
    decodePieces d pieces = .ok ((decode d pieces.flatten).1, chunkedEnd (decode d pieces.flatten).2) := by
  induction pieces generalizing d with
  | nil => rfl
  | cons piece pieces ih =>
    obtain ⟨c, hc, hok, hreports⟩ := phrDecodeChunked_run hd piece
    have happ : decode d (piece :: pieces).flatten =
        resume chunkedStep (0 + piece.length) pieces.flatten (decode d piece) :=
      run_append 0 d piece pieces.flatten
    rw [decodePieces, hc, ok_bind, happ]
    rcases hr : decode d piece with ⟨o, d' | ⟨e | u, rest⟩⟩
    · rw [hr] at hreports
      obtain ⟨hret, rfl, hdata⟩ := hreports
      simp only [if_pos hret, ih hok fun x hx => hlen x (List.mem_cons_of_mem _ hx), ok_bind, hdata, resume,
        run_chunked, prepend_fst, prepend_snd]
    · rw [hr] at hreports
      obtain ⟨hret, hdata⟩ := hreports
      simp only [hret, hdata]
      rfl
    · rw [hr] at hreports
      obtain ⟨hret, hdata, hleft⟩ := hreports
      have hrest : rest.length < 2 ^ 63 := by
        obtain ⟨a, c', o₁, o₂, s₁, hb, -⟩ := halted_at (show run chunkedStep 0 d piece = _ from hr)
        have hpiece := hlen piece (List.mem_cons_self ..)
        rw [hb, List.length_append, List.length_cons] at hpiece
        omega
      rw [ssize_ok hrest] at hret
      simp only [hret, hdata, if_neg (show ¬ ((rest.length : Nat) : Int) = -2 by omega),
        if_neg (show ¬ ((rest.length : Nat) : Int) < 0 by omega), Int.toNat_natCast, hleft]
      rfl

end Httparsed.Pico
