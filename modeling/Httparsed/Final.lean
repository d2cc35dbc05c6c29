import Httparsed.Accept

/-!
# Answers are final (bench/bench.d:54, testHttparsed)

A call that has found the end of a head or an error would find the same with any bytes behind it, and a call
that asks for more has made the first callbacks of every longer call (`answers_final`). So a buffer of
complete heads can be cut at the returned lengths, one call after the other: `pipeline` is that loop.
-/

namespace Httparsed

open Transducer Grammar

variable {σ : Type}

/-! ## Longer buffers -/

/-- A verdict does not depend on what follows. -/
theorem answer_append {l : StartLine} {b rest : List Byte} {v : Except (ParserError × Nat) Nat}
    {o : List (Nat × Event Slice)} (h : read l b 0 = (o, .halted v rest)) (x : List Byte) :
    answer l (b ++ x) 0 = answer l b 0 := by
  have hx : read l (b ++ x) 0 = (o, .halted v (rest ++ x)) := halted_append h x
  unfold answer
  rw [h, hx]
  rcases v with ⟨e, m⟩ | n <;> rfl

/-- The callbacks made on a buffer come first on every longer one. -/
theorem events_grow (l : StartLine) (b x : List Byte) :
    (answer l b 0).events <+: (answer l (b ++ x) 0).events := by
  have h : (read l b 0).1 <+: (read l (b ++ x) 0).1 := run_fst_prefix 0 _ b x
  exact (h.map _).map _

/-- An answer other than `partial` is a verdict. -/
theorem halted_of_code {l : StartLine} {b : List Byte} (h : (answer l b 0).code ≠ err .partialData) :
    ∃ o v rest, read l b 0 = (o, .halted v rest) := by
  rcases hr : read l b 0 with ⟨o, s | ⟨v, rest⟩⟩
  · exact absurd (by simp only [answer, hr, outcomeCode]) h
  · exact ⟨o, v, rest, rfl⟩

/-- `partial` is the answer exactly when the buffer ends inside a head. -/
theorem code_partial_iff {l : StartLine} {b : List Byte} {lastPos : Nat} :
    (answer l b lastPos).code = err .partialData ↔ ∃ o s, read l b lastPos = (o, .live s) := by
  constructor
  · intro h
    rcases hr : read l b lastPos with ⟨o, s | ⟨⟨e, m⟩ | n, rest⟩⟩
    · exact ⟨o, s, rfl⟩
    · have hcode : err e = err .partialData := by simpa only [answer, hr, outcomeCode] using h
      exact absurd (err_inj.1 hcode) (read_decided hr)
    · have hcode : (n : Int) = err .partialData := by simpa only [answer, hr, outcomeCode] using h
      have := err_neg .partialData
      omega
  · rintro ⟨o, s, hr⟩
    simp only [answer, hr, outcomeCode]

/-- Any other answer is a length or a definite error. -/
theorem code_definite {l : StartLine} (g : StartGrammar l) {b : List Byte}
    (h : (answer l b 0).code ≠ err .partialData) :
    (∃ n : Nat, 0 < n ∧ (answer l b 0).code = n) ∨ ∃ e, e ≠ .partialData ∧ (answer l b 0).code = err e := by
  obtain ⟨o, v, rest, hr⟩ := halted_of_code h
  rcases v with ⟨e, m⟩ | n
  · exact Or.inr ⟨e, read_decided hr, by simp only [answer, hr, outcomeCode]⟩
  · obtain ⟨hd, -, rfl, -⟩ := read_sound (g := g) hr
    exact Or.inl ⟨_, head_pos hd, by simp only [answer, hr, outcomeCode]⟩

/-- What was accepted is the text of a head, and it is accepted with anything behind it. -/
theorem answer_take {l : StartLine} (g : StartGrammar l) {b : List Byte} {n : Nat} (hn : 0 < n)
    (h : (answer l b 0).code = n) (y : List Byte) :
    n ≤ b.length ∧ answer l (b.take n ++ y) 0 = answer l b 0 := by
  obtain ⟨hd, ⟨rest, rfl⟩, rfl, -⟩ := (answer_iff_head g b hn _).1 ⟨h, rfl⟩
  have htake : (hd.bytes ++ rest).take hd.bytes.length = hd.bytes := List.take_left' rfl
  refine ⟨by rw [List.length_append]; exact Nat.le_add_right _ _, ?_⟩
  have hy := read_complete hd y
  have hrest := read_complete hd rest
  rw [htake]
  unfold answer
  rw [hy, hrest]
  rfl

/-- A strict prefix of an accepted head asks for more. -/
theorem answer_strict_prefix {l : StartLine} (g : StartGrammar l) {b : List Byte} {n k : Nat} (hn : 0 < n)
    (h : (answer l b 0).code = n) (hk : k < n) : (answer l (b.take k) 0).code = err .partialData := by
  by_contra hne
  obtain ⟨o, v, rest, hr⟩ := halted_of_code hne
  have happ := answer_append hr (b.drop k)
  rw [List.take_append_drop] at happ
  rw [happ] at h
  have hle := (answer_take g hn h []).1
  rw [List.length_take] at hle
  omega

/-! ## Pipelining -/

/-- The loop of testHttparsed (bench/bench.d:59), with the lengths it steps over: parse, check that the result is
positive, cut the parsed head off. -/
def Entry.pipeline (entry : Entry) (simd : Simd) (h : Handler σ) : Nat → List Byte → σ → Option (List Nat)
  | 0, _, _ => none
  | fuel + 1, data, s =>
    if data = [] then some []
    else
      match (entry.observe simd h data 0 s).code with
      | .error _ => none
      | .ok res =>
        if 0 < res then
          (entry.pipeline simd h fuel (data.drop res.toNat) (entry.observe simd h data 0 s).state).map (res.toNat :: ·)
        else none

/-- Whole heads, one after the other, are cut at their boundaries. -/
theorem pipeline_heads (entry : Entry) (simd : Simd) {h : Handler σ} (hn : h.NeverRejects) {ms : List (List Byte)}
    (hms : ∀ m ∈ ms, (answer entry.line m 0).code = m.length) (hlen : ms.flatten.length < 2 ^ 31) {fuel : Nat}
    (hf : ms.flatten.length < fuel) (s : σ) : entry.pipeline simd h fuel ms.flatten s = some (ms.map List.length) := by
  induction ms generalizing fuel s with
  | nil =>
    obtain ⟨fuel, rfl⟩ : ∃ k, fuel = k + 1 := ⟨fuel - 1, by simp at hf; omega⟩
    rfl
  | cons m ms ih =>
    obtain ⟨fuel, rfl⟩ : ∃ k, fuel = k + 1 := ⟨fuel - 1, by omega⟩
    have hm := hms m (List.mem_cons_self ..)
    have hpos : 0 < m.length := by
      rcases m with _ | ⟨c, m⟩
      · have hnil : err .partialData ≠ ((0 : Nat) : Int) := by decide
        exact absurd hm hnil
      · exact Nat.succ_pos _
    have hne : (m :: ms).flatten ≠ [] := by
      intro hnil
      rw [List.flatten_cons, List.append_eq_nil_iff] at hnil
      rw [hnil.1] at hpos
      exact Nat.lt_irrefl 0 hpos
    have hcode : (answer entry.line (m :: ms).flatten 0).code = m.length := by
      have htake := (answer_take entry.grammar hpos hm ms.flatten).2
      rw [List.take_length] at htake
      rw [List.flatten_cons, htake, hm]
    have hobs := entry.observe_code simd hn hlen (Nat.zero_le _) s
    rw [hcode] at hobs
    rw [Entry.pipeline, if_neg hne]
    simp only [hobs]
    have hdrop : (m :: ms).flatten.drop ((m.length : Int).toNat) = ms.flatten := by
      rw [Int.toNat_natCast, List.flatten_cons, List.drop_left' rfl]
    simp only [List.flatten_cons, List.length_append] at hlen hf
    rw [if_pos (by exact_mod_cast hpos), hdrop,
      ih (fun k hk => hms k (List.mem_cons_of_mem _ hk)) (by omega) (by omega)]
    rfl

/-- **Answers are final, and bytes after the head do not matter.** An accepted head is accepted with anything
behind it; an error stays; what was reported before `partial` stays; every strict prefix of an accepted head
answers `partial`; and heads sent one after the other are cut at their boundaries. -/
theorem answers_final (entry : Entry) (simd : Simd) {h : Handler σ} (hn : h.NeverRejects) {b : List Byte}
    (hb : b.length < 2 ^ 31) (s : σ) :
    (∀ n : Nat, 0 < n → (entry.observe simd h b 0 s).code = .ok (n : Int) →
      ∀ y, (b.take n ++ y).length < 2 ^ 31 →
        (entry.observe simd h (b.take n ++ y) 0 s).code = .ok (n : Int) ∧
        (entry.observe simd h (b.take n ++ y) 0 s).calls = (entry.observe simd h b 0 s).calls) ∧
    (∀ e : ParserError, e ≠ .partialData → (entry.observe simd h b 0 s).code = .ok (err e) →
      ∀ x, (b ++ x).length < 2 ^ 31 →
        (entry.observe simd h (b ++ x) 0 s).code = .ok (err e) ∧
        (entry.observe simd h (b ++ x) 0 s).calls = (entry.observe simd h b 0 s).calls) ∧
    ((entry.observe simd h b 0 s).code = .ok (err .partialData) →
      ∀ x, (b ++ x).length < 2 ^ 31 →
        (entry.observe simd h b 0 s).calls <+: (entry.observe simd h (b ++ x) 0 s).calls) ∧
    (∀ n k : Nat, (entry.observe simd h b 0 s).code = .ok (n : Int) → k < n →
      (entry.observe simd h (b.take k) 0 s).code = .ok (err .partialData)) ∧
    (∀ ms : List (List Byte), ms.flatten = b → (∀ m ∈ ms, (entry.observe simd h m 0 s).code = .ok (m.length : Int)) →
      entry.pipeline simd h (b.length + 1) b s = some (ms.map List.length)) := by
  have hcode : ∀ {c : List Byte} {n : Int}, c.length < 2 ^ 31 →
      ((entry.observe simd h c 0 s).code = .ok n ↔ (answer entry.line c 0).code = n) := by
    intro c n hc
    rw [entry.observe_code simd hn hc (Nat.zero_le _) s, Except.ok.injEq]
  have hcalls : ∀ {c : List Byte}, c.length < 2 ^ 31 →
      (entry.observe simd h c 0 s).calls = h.hears (answer entry.line c 0).events :=
    fun hc => (entry.observe_accepting simd hn hc (Nat.zero_le _) s).2
  refine ⟨?_, ?_, ?_, ?_, ?_⟩
  · intro n hpos hres y hy
    have hans := (answer_take entry.grammar hpos ((hcode hb).1 hres) y).2
    rw [hcode hy, hcalls hy, hcalls hb, hans]
    exact ⟨(hcode hb).1 hres, rfl⟩
  · intro e he hres x hx
    have hne : (answer entry.line b 0).code ≠ err .partialData := by
      rw [(hcode hb).1 hres]
      exact fun h => he (err_inj.1 h)
    obtain ⟨o, v, rest, hr⟩ := halted_of_code hne
    rw [hcode hx, hcalls hx, hcalls hb, answer_append hr x]
    exact ⟨(hcode hb).1 hres, rfl⟩
  · intro _ x hx
    rw [hcalls hb, hcalls hx]
    exact (events_grow entry.line b x).filter _
  · intro n k hres hk
    have hle : (b.take k).length < 2 ^ 31 := by
      rw [List.length_take]
      omega
    rw [hcode hle]
    exact answer_strict_prefix entry.grammar (by omega) ((hcode hb).1 hres) hk
  · rintro ms rfl hms
    refine pipeline_heads entry simd hn ?_ hb (Nat.lt_succ_self _) s
    intro m hm
    have hle : m.length < 2 ^ 31 := Nat.lt_of_le_of_lt (List.sublist_flatten_of_mem hm).length_le hb
    exact (hcode hle).1 (hms m hm)

/-- Two heads in one buffer. -/
def twoHeads : List Byte := ascii "GET / HTTP/1.0\n\nGET / HTTP/1.1\n\n"

theorem answers_final_two_heads :
    Entry.request.pipeline .unrolled Handler.recorder (twoHeads.length + 1) twoHeads () = some [16, 16] :=
  (answers_final .request .unrolled Handler.recorder_neverRejects (b := twoHeads) (by decide) ()).2.2.2.2
    [ascii "GET / HTTP/1.0\n\n", ascii "GET / HTTP/1.1\n\n"] (by decide) (by decide +kernel)

end Httparsed
