import Httparsed.Final
import Mathlib.Order.Bounds.Basic

/-!
# The code of an error names the byte it is about

A request that is refused is live up to some byte and refused with that byte (`halted_at`); the bytes before
it are the longest prefix that is answered `partial` (`longest_live`). Which code it is refused with can be
read off that prefix and that byte (`Offence`). One half of this is the invariant `HeadState.Reads` at the
refusing step, the other a run of the reader for each kind of prefix.
-/

namespace Httparsed

open Transducer Grammar

variable {σ : Type}

/-! ## What a code says -/

/-- What a code other than `token` says about the byte `c` and the bytes `pre` before it. -/
def Names (pre : List Byte) (c : Byte) : ParserError → Prop
  | .newLine => pre.getLast? = some CR
  | .noMethod => (∃ lead, pre = leadBytes lead) ∧ c = SP
  | .noUri => (∃ (lead : Option Eol) (m : Word tokenByte) (g : Spaces), pre = leadBytes lead ++ (m.bytes ++ g.bytes)) ∧
      (c = CR ∨ c = LF)
  | .noVersion => (∃ (lead : Option Eol) (m : Word tokenByte) (g : Spaces) (u : Word uriByte) (g' : Spaces),
      pre = leadBytes lead ++ (m.bytes ++ g.bytes ++ u.bytes ++ g'.bytes)) ∧ (c = CR ∨ c = LF)
  | .noHeaderName => (∃ (lead : Option Eol) (l : RequestLine) (ls : List Line), Opens ls ∧
      pre = leadBytes lead ++ l.bytes ++ linesBytes ls) ∧ c = COLON
  | _ => False

/-- What a code says, `token` being the code of every byte that `names` has no other for. -/
def Offence (names : List Byte → Byte → ParserError → Prop) (pre : List Byte) (c : Byte) : ParserError → Prop
  | .token => ∀ e, ¬names pre c e
  | e => names pre c e

section

variable {names : List Byte → Byte → ParserError → Prop} {pre : List Byte} {c : Byte} {e : ParserError}

theorem offence_of_ne_token (h : e ≠ .token) : Offence names pre c e ↔ names pre c e := by
  cases e <;> first | rfl | exact absurd rfl h

/-- A code that is named, or `token`, is the only one that fits, if no other is named. -/
theorem offence_iff (htoken : ¬names pre c .token) (hforward : e = .token ∨ names pre c e)
    (hunique : ∀ e', names pre c e' → e' = e) (e' : ParserError) : Offence names pre c e' ↔ e' = e := by
  by_cases ht : e' = .token
  · subst ht
    constructor
    · intro h
      rcases hforward with rfl | hn
      · rfl
      · exact absurd hn (h e)
    · rintro rfl e' hn
      obtain rfl := hunique e' hn
      exact htoken hn
  · rw [offence_of_ne_token ht]
    constructor
    · exact hunique e'
    · rintro rfl
      exact hforward.resolve_left ht

end

/-! ## The longest prefix that is answered `partial` -/

section

variable {l : StartLine} {b : List Byte}

/-- An error comes with the first byte that cannot be read. -/
theorem longest_live {e : ParserError} (he : e ≠ .partialData) (hcode : (answer l b 0).code = err e) :
    ∃ a c rest o s o' m, b = a ++ c :: rest ∧ read l a 0 = (o, .live s) ∧
      headStep l (0 + a.length) s c = (o', .halt (.error (e, m))) ∧
      IsGreatest {k | k ≤ b.length ∧ (answer l (b.take k) 0).code = err .partialData} a.length := by
  have hne : (answer l b 0).code ≠ err .partialData := by
    rw [hcode]
    exact fun h => he (err_inj.1 h)
  obtain ⟨o, v, rest, hread⟩ := halted_of_code hne
  obtain ⟨a, c, o₁, o₂, s, rfl, -, hlive, hstep⟩ := halted_at hread
  obtain ⟨e', m, rfl⟩ : ∃ e' m, v = .error (e', m) := by
    rcases v with ⟨e', m⟩ | n
    · exact ⟨e', m, rfl⟩
    · have hpos : ((n : Nat) : Int) = err e := by simpa only [answer, hread, outcomeCode] using hcode
      have := err_neg e
      omega
  obtain rfl : e' = e := err_inj.1 (by simpa only [answer, hread, outcomeCode] using hcode)
  have hread' : read l a 0 = (o₁, .live s) := hlive
  refine ⟨a, c, rest, o₁, s, o₂, m, rfl, hread', hstep, ⟨?_, ?_⟩, ?_⟩
  · rw [List.length_append]
    exact Nat.le_add_right _ _
  · rw [List.take_left' rfl]
    exact code_partial_iff.2 ⟨o₁, s, hread'⟩
  · rintro k ⟨-, hk⟩
    by_contra hlt
    -- a longer prefix has read the byte, and with it the verdict
    have htake : (a ++ c :: rest).take k = a ++ c :: rest.take (k - a.length - 1) := by
      rw [List.take_append, List.take_of_length_le (by omega)]
      obtain ⟨j, hj⟩ : ∃ j, k - a.length = j + 1 := ⟨k - a.length - 1, by omega⟩
      rw [hj, List.take_succ_cons]
      rfl
    have hhalted : read l ((a ++ c :: rest).take k) 0 =
        (o₁ ++ o₂, .halted (.error (e', m)) (rest.take (k - a.length - 1))) := by
      rw [htake]
      exact run_halt_at hlive hstep _
    obtain ⟨o', s', hk⟩ := code_partial_iff.1 hk
    rw [hhalted] at hk
    cases hk

end

/-! ## A refusal satisfies its code -/

/-- A request line is refused for a reason that can be seen. -/
theorem requestStep_refused {p : Nat} {w : List Byte} {o o' : List (Event Slice)} {s : RequestState} {c : Byte}
    {e : ParserError} (hi : s.Reads p w o) (hs : requestStep (p + w.length) s c = (o', .halt (.error e)))
    (lead : Option Eol) : e = .token ∨ Names (leadBytes lead ++ w) c e := by
  cases s with
  | method acc =>
    obtain ⟨rfl, -, -⟩ := hi
    simp only [requestStep, stepMethod] at hs
    split_ifs at hs with h1 h2 h3 <;> cases hs
    · subst h3
      exact Or.inr ⟨⟨lead, List.append_nil _⟩, h2⟩
    · exact Or.inl rfl
  | methodSpaces =>
    obtain ⟨m, g, rfl, -⟩ := hi
    simp only [requestStep, stepUri] at hs
    split_ifs at hs with h1 h2 h3 <;> cases hs
    · exact Or.inr ⟨⟨lead, m, g, rfl⟩, h1⟩
    · exact Or.inl rfl
  | uri acc =>
    simp only [requestStep, stepUri] at hs
    split_ifs at hs <;> cases hs
    exact Or.inl rfl
  | uriSpaces =>
    obtain ⟨m, g, u, g', rfl, -⟩ := hi
    simp only [requestStep, stepVersion] at hs
    split_ifs at hs with h1 <;> cases hs
    · exact Or.inr ⟨⟨lead, m, g, u, g', rfl⟩, h1⟩
    · exact Or.inl rfl
  | version acc =>
    simp only [requestStep, stepVersion] at hs
    split_ifs at hs <;> cases hs
    exact Or.inl rfl
  | versionCR =>
    obtain ⟨m, g, u, g', v, rfl, -⟩ := hi
    simp only [requestStep] at hs
    split_ifs at hs <;> cases hs
    exact Or.inr (by simp [Names])

/-- A header line is refused for a reason that can be seen in the line. -/
theorem lineStep_refused {m : Nat} {later : Bool} {tail : List Byte} {phase : HeaderPhase} {c : Byte}
    {o : List (Event Slice)} {e : ParserError} (hi : phase.Reads m later tail)
    (hs : lineStep (m + tail.length) phase c = (o, .halt (.error e))) :
    e = .token ∨ (e = .newLine ∧ tail.getLast? = some CR) ∨ (e = .noHeaderName ∧ tail = [] ∧ c = COLON) := by
  have hvalue : ∀ {nm : Option Slice} {acc : Slice}, stepValue nm acc c = (o, .halt (.error e)) → e = .token := by
    intro nm acc h
    unfold stepValue at h
    split_ifs at h <;> cases h
    rfl
  cases phase with
  | lineStart hasHeader =>
    obtain ⟨rfl, -⟩ := hi
    simp only [lineStep, stepName] at hs
    split_ifs at hs with h1 h2 h3 h4 h5
    · cases hs
    · cases hs
    · exact Or.inl (hvalue hs)
    · cases hs
    · cases hs
      exact Or.inr (Or.inr ⟨rfl, rfl, h5⟩)
    · cases hs
      exact Or.inl rfl
  | closingCR =>
    obtain rfl : tail = [CR] := hi
    simp only [lineStep] at hs
    split_ifs at hs <;> cases hs
    exact Or.inr (Or.inl ⟨rfl, rfl⟩)
  | name acc =>
    obtain ⟨n, rfl, rfl⟩ := hi
    simp only [lineStep, stepName, if_neg n.nonempty] at hs
    split_ifs at hs <;> cases hs
    exact Or.inl rfl
  | blanks nm =>
    simp only [lineStep] at hs
    split_ifs at hs
    · cases hs
    · exact Or.inl (hvalue hs)
  | value nm acc => exact Or.inl (hvalue hs)
  | valueCR nm acc =>
    obtain ⟨x, -, rfl, -⟩ := hi
    simp only [lineStep] at hs
    split_ifs at hs <;> cases hs
    exact Or.inr (Or.inl ⟨rfl, by simp⟩)

theorem headerStep_refused {p : Nat} {w : List Byte} {o o' : List (Nat × Event Slice)} {s : HeaderState} {c : Byte}
    {e : ParserError} {m : Nat} (hi : s.Reads p w o)
    (hs : headerStep (p + w.length) s c = (o', .halt (.error (e, m)))) :
    e = .token ∨ (e = .newLine ∧ w.getLast? = some CR) ∨
      (e = .noHeaderName ∧ (∃ ls, Opens ls ∧ w = linesBytes ls) ∧ c = COLON) := by
  obtain ⟨k, phase⟩ := s
  obtain ⟨ls, tail, hopens, rfl, -, rfl, hphase⟩ := hi
  rw [List.length_append, ← Nat.add_assoc] at hs
  obtain ⟨-, -, o₁, hl⟩ := headerStep_error hs
  rcases lineStep_refused hphase hl with h | ⟨h, htail⟩ | ⟨h, rfl, hc⟩
  · exact Or.inl h
  · exact Or.inr (Or.inl ⟨h, by rw [List.getLast?_append, htail]; rfl⟩)
  · exact Or.inr (Or.inr ⟨h, ⟨ls, hopens, List.append_nil _⟩, hc⟩)

/-- **The code of a refusal**, read off the bytes before it. -/
theorem headStep_refused {w : List Byte} {o o' : List (Nat × Event Slice)} {s : HeadState requestLine} {c : Byte}
    {e : ParserError} {m : Nat} (hi : HeadState.Reads requestGrammar w o s)
    (hs : headStep requestLine (0 + w.length) s c = (o', .halt (.error (e, m)))) : e = .token ∨ Names w c e := by
  have hline : ∀ (lead : Option Eol) (w' : List Byte) (o₁ : List (Event Slice)) (t : RequestState) (k : Nat),
      w = leadBytes lead ++ w' → RequestState.Reads (leadBytes lead).length w' o₁ t →
      tagged k (requestStep (0 + w.length) t c) = (o', .halt (.error (e, m))) → e = .token ∨ Names w c e := by
    rintro lead w' o₁ t k rfl hreads ht
    obtain ⟨o₂, hl, -, -⟩ := tagged_error ht
    rw [Nat.zero_add, List.length_append] at hl
    exact requestStep_refused hreads hl lead
  cases s with
  | inl s =>
    obtain ⟨⟨e', m'⟩, hl, he⟩ := seq_inl_halt hs
    cases he
    rcases leadStep_cases hl with ⟨-, -, -, hn⟩ | ⟨-, -, -, hn⟩ | ⟨rfl, -, -, hn⟩ | ⟨k, t, hs', ht⟩
    · cases hn
    · cases hn
    · obtain ⟨rfl, -⟩ := hi
      cases hn
      exact Or.inr rfl
    · rcases hs' with ⟨rfl, -, rfl, -⟩ | rfl
      · obtain ⟨rfl, -⟩ := hi
        exact hline none [] [] (.method ⟨0, []⟩) k rfl ⟨rfl, by simp, rfl⟩ ht
      · obtain ⟨lead, w', o₁, rfl, hw, -, hreads, -⟩ := hi
        exact hline lead w' o₁ t _ hw hreads ht
  | inr s =>
    obtain ⟨lead, ph, w', o₁, rfl, -, hreads⟩ := hi
    rw [Nat.zero_add, List.length_append] at hs
    rcases headerStep_refused hreads (seq_inr_halt hs) with h | ⟨h, hw⟩ | ⟨rfl, ⟨ls, hopens, rfl⟩, hc⟩
    · exact Or.inl h
    · subst h
      right
      show List.getLast? _ = some CR
      rw [List.getLast?_append, hw]
      rfl
    · exact Or.inr ⟨⟨lead, ph, ls, hopens, rfl⟩, hc⟩

/-! ## A prefix decides its code -/

/-- The states in which a CR has just been read. -/
inductive AfterCR : HeadState requestLine → Prop where
  | lead : AfterCR (.inl .beginCR)
  | version (m : Nat) : AfterCR (.inl (.line m RequestState.versionCR))
  | closing (m : Nat) : AfterCR (.inr ⟨m, .closingCR⟩)
  | value (m : Nat) (nm : Option Slice) (v : Slice) : AfterCR (.inr ⟨m, .valueCR nm v⟩)

theorem requestStep_CR {p : Nat} {s s' : RequestState} {o : List (Event Slice)}
    (h : requestStep p s CR = (o, .more s')) : s' = .versionCR := by
  cases s with
  | method acc => cases h
  | methodSpaces => cases h
  | uri acc => cases h
  | uriSpaces => cases h
  | version acc => cases h; rfl
  | versionCR => cases h

theorem lineStep_CR {p : Nat} {s s' : HeaderPhase} {o : List (Event Slice)}
    (h : lineStep p s CR = (o, .more s')) : s' = .closingCR ∨ ∃ nm v, s' = .valueCR nm v := by
  cases s with
  | lineStart hasHeader => cases h; exact Or.inl rfl
  | closingCR => cases h
  | name acc => cases h
  | blanks nm => cases h; exact Or.inr ⟨_, _, rfl⟩
  | value nm acc => cases h; exact Or.inr ⟨_, _, rfl⟩
  | valueCR nm acc => cases h

theorem lineStep_CR_ok {p : Nat} {s : HeaderPhase} {o : List (Event Slice)} {v : LineEnd} :
    lineStep p s CR ≠ (o, .halt (.ok v)) := by
  intro h
  cases s <;> cases h

theorem headStep_CR {p : Nat} {s s' : HeadState requestLine} {o : List (Nat × Event Slice)}
    (h : headStep requestLine p s CR = (o, .more s')) : AfterCR s' := by
  cases s with
  | inl s =>
    rcases seq_inl_more h with ⟨s₁, hl, rfl⟩ | ⟨u, hl, rfl⟩
    · rcases leadStep_cases hl with ⟨-, -, -, hn⟩ | ⟨-, hc, -, -⟩ | ⟨-, -, -, hn⟩ | ⟨m, t, -, ht⟩
      · cases hn
        exact .lead
      · cases hc
      · cases hn
      · obtain ⟨o₁, t', hstep, -, rfl⟩ := tagged_more ht
        obtain rfl := requestStep_CR hstep
        exact .version m
    · rcases leadStep_cases hl with ⟨-, -, -, hn⟩ | ⟨-, -, -, hn⟩ | ⟨-, -, -, hn⟩ | ⟨m, t, -, ht⟩
      · cases hn
      · cases hn
      · cases hn
      · obtain ⟨o₁, hstep, -⟩ := tagged_ok ht
        exact absurd (requestStep_ends p t CR u (congrArg Prod.snd hstep)) (by decide)
  | inr s =>
    obtain ⟨s₁, hs, rfl⟩ := seq_inr_more h
    rcases headerStep_more hs with ⟨o₁, phase', hl, -, rfl⟩ | ⟨o₁, nm, v, hl, -, -⟩
    · rcases lineStep_CR hl with rfl | ⟨nm, v, rfl⟩
      · exact .closing s.mark
      · exact .value s.mark nm v
    · exact absurd hl lineStep_CR_ok

/-- After a CR there is an LF, or an error that says so. -/
theorem AfterCR.step {p : Nat} {s : HeadState requestLine} {c : Byte} {o : List (Nat × Event Slice)} {e : ParserError}
    {m : Nat} (h : AfterCR s) (hs : headStep requestLine p s c = (o, .halt (.error (e, m)))) :
    e = .newLine ∧ c ≠ LF := by
  by_cases hc : c = LF
  · subst hc
    cases h <;> cases hs
  · refine ⟨?_, hc⟩
    cases h with
    | lead =>
      simp only [headStep, seq, leadStep, if_neg hc] at hs
      cases hs
      rfl
    | version k =>
      simp only [headStep, seq, leadStep, requestLine, requestStep, if_neg hc, tagged] at hs
      cases hs
      rfl
    | closing k =>
      simp only [headStep, seq, headerStep, lineStep, if_neg hc] at hs
      cases hs
      rfl
    | value k nm v =>
      simp only [headStep, seq, headerStep, lineStep, if_neg hc] at hs
      cases hs
      rfl

/-- A live run whose last byte is a CR stands behind it. -/
theorem read_afterCR {a : List Byte} {o : List (Nat × Event Slice)} {s : HeadState requestLine}
    (h : read requestLine a 0 = (o, .live s)) (hlast : a.getLast? = some CR) : AfterCR s := by
  have hstep : Preserved (headStep requestLine) 0 (fun w _ s => w.getLast? = some CR → AfterCR s) := by
    intro w o₁ s₁ c o' s' _ hs hc
    obtain rfl : c = CR := by simpa using hc
    exact headStep_CR hs
  exact run_inv_live hstep (by intro h; cases h) (show run _ 0 (.inl .begin) a = _ from h) hlast

section

variable (lead : Option Eol) (c : Byte) (rest : List Byte)

theorem read_noMethod : ∃ o m, read requestLine (leadBytes lead ++ SP :: rest) 0 =
    (o, .halted (.error (.noMethod, m)) rest) := by
  refine ⟨[], (leadBytes lead).length, ?_⟩
  unfold read
  rw [if_pos rfl, run_leadBytes lead ⟨by decide, by decide⟩]
  exact run_halt rfl rest

/-- A request line that is refused at some byte is where the head is refused. -/
theorem read_refused {w : List Byte} {e : ParserError} (hfirst : ∃ d ds, w ++ c :: rest = d :: ds ∧ d ≠ CR ∧ d ≠ LF)
    (h : (run requestStep (leadBytes lead).length (.method ⟨(leadBytes lead).length, []⟩) (w ++ c :: rest)).2 =
      .halted (.error e) rest) :
    ∃ o m, read requestLine (leadBytes lead ++ w ++ c :: rest) 0 = (o, .halted (.error (e, m)) rest) := by
  obtain ⟨d, ds, hcons, hd⟩ := hfirst
  have hrun : (run requestLine.step (leadBytes lead).length (requestLine.start (leadBytes lead).length)
      (w ++ c :: rest)).2 = .halted (.error e) rest := h
  unfold read
  rw [if_pos rfl, List.append_assoc, hcons, run_leadBytes lead hd, ← hcons, run_headStep_line, hrun]
  exact ⟨_, _, rfl⟩

/-- The first byte of a method is no line end. -/
theorem method_first (m : Word tokenByte) (w : List Byte) : ∃ d ds, m.bytes ++ w = d :: ds ∧ d ≠ CR ∧ d ≠ LF := by
  obtain ⟨d, ds, hm, hd, -⟩ := Word.exists_cons m
  obtain ⟨-, -, h1, h2, -⟩ := tokenByte_plain hd
  exact ⟨d, ds ++ w, by rw [hm, List.cons_append], h1, h2⟩

theorem read_noUri (m : Word tokenByte) (g : Spaces) (hc : c = CR ∨ c = LF) :
    ∃ o k, read requestLine (leadBytes lead ++ (m.bytes ++ g.bytes) ++ c :: rest) 0 =
      (o, .halted (.error (.noUri, k)) rest) := by
  have hstep : ∀ p, requestStep p .methodSpaces c = ([], .halt (.error .noUri)) := by
    intro p
    simp only [requestStep, if_pos hc]
  apply read_refused
  · rw [List.append_assoc]
    exact method_first m _
  · rw [List.append_assoc, run_methodSpaces, run_halt (hstep _), prepend_snd]

theorem read_noVersion (m : Word tokenByte) (g : Spaces) (u : Word uriByte) (g' : Spaces) (hc : c = CR ∨ c = LF) :
    ∃ o k, read requestLine (leadBytes lead ++ (m.bytes ++ g.bytes ++ u.bytes ++ g'.bytes) ++ c :: rest) 0 =
      (o, .halted (.error (.noVersion, k)) rest) := by
  obtain ⟨x, xs, hu, hx, -⟩ := Word.exists_cons u
  have hstep : ∀ p, requestStep p .uriSpaces c = ([], .halt (.error .noVersion)) := by
    intro p
    simp only [requestStep, if_pos hc]
  have huri : ∀ q, run requestStep q .methodSpaces (u.bytes ++ (g'.bytes ++ c :: rest)) =
      run requestStep q (.uri ⟨q, []⟩) (u.bytes ++ (g'.bytes ++ c :: rest)) := by
    intro q
    rw [hu]
    exact run_cons_congr (requestStep_methodSpaces (uriByte_plain hx) q) _
  have hassoc : m.bytes ++ g.bytes ++ u.bytes ++ g'.bytes ++ c :: rest =
      m.bytes ++ (g.bytes ++ (u.bytes ++ (g'.bytes ++ c :: rest))) := by
    simp only [List.append_assoc]
  apply read_refused
  · rw [hassoc]
    exact method_first m _
  · rw [hassoc, run_methodSpaces, huri, run_uriSpaces, run_halt (hstep _), prepend_snd, prepend_snd]

theorem read_noHeaderName (l : RequestLine) {ls : List Line} (hopens : Opens ls) :
    ∃ o k, read requestLine (leadBytes lead ++ l.bytes ++ linesBytes ls ++ COLON :: rest) 0 =
      (o, .halted (.error (.noHeaderName, k)) rest) := by
  have hstep : ∀ p k, headerStep p ⟨k, .lineStart (!ls.isEmpty)⟩ COLON = ([], .halt (.error (.noHeaderName, k))) := by
    intro p k
    cases ls <;> rfl
  have hread := read_lines (g := requestGrammar) lead l hopens (COLON :: rest)
  rw [run_halt (hstep _ _)] at hread
  exact ⟨_, _, hread⟩

end

/-- **A prefix decides its code**: refused at `c`, a request is refused with the code that names it. -/
theorem names_unique {a : List Byte} {c : Byte} {o o' : List (Nat × Event Slice)} {s : HeadState requestLine}
    {e e' : ParserError} {m : Nat} (hlive : read requestLine a 0 = (o, .live s))
    (hs : headStep requestLine (0 + a.length) s c = (o', .halt (.error (e, m)))) (hnames : Names a c e') : e' = e := by
  have hread : read requestLine (a ++ c :: []) 0 = (o ++ o', .halted (.error (e, m)) []) := run_halt_at hlive hs []
  have hcode : ∀ {o₁ : List (Nat × Event Slice)} {k : Nat},
      read requestLine (a ++ c :: []) 0 = (o₁, .halted (.error (e', k)) []) → e' = e := by
    intro o₁ k h
    rw [hread] at h
    cases h
    rfl
  cases e' with
  | newLine => exact ((read_afterCR hlive hnames).step hs).1.symm
  | noMethod =>
    obtain ⟨⟨lead, rfl⟩, rfl⟩ := hnames
    obtain ⟨_, _, h⟩ := read_noMethod lead []
    exact hcode h
  | noUri =>
    obtain ⟨⟨lead, w, g, rfl⟩, hc⟩ := hnames
    obtain ⟨_, _, h⟩ := read_noUri lead c [] w g hc
    exact hcode h
  | noVersion =>
    obtain ⟨⟨lead, w, g, u, g', rfl⟩, hc⟩ := hnames
    obtain ⟨_, _, h⟩ := read_noVersion lead c [] w g u g' hc
    exact hcode h
  | noHeaderName =>
    obtain ⟨⟨lead, l, ls, hopens, rfl⟩, rfl⟩ := hnames
    obtain ⟨_, _, h⟩ := read_noHeaderName lead [] l hopens
    exact hcode h
  | _ => exact hnames.elim

/-- A call that ends with an error has read the longest part that is answered `partial`, and is refused with the
byte behind it. -/
theorem Entry.refused_at (entry : Entry) (simd : Simd) {h : Handler σ} (hn : h.NeverRejects) {b : List Byte}
    (hb : b.length < 2 ^ 31) (s : σ) {code : Int} (hcode : (entry.observe simd h b 0 s).code = .ok code)
    (hneg : code < 0) (hmore : code ≠ err .partialData) :
    ∃ e a c rest o st o' m, code = err e ∧ b = a ++ c :: rest ∧ read entry.line a 0 = (o, .live st) ∧
      headStep entry.line (0 + a.length) st c = (o', .halt (.error (e, m))) ∧
      IsGreatest {k | k ≤ b.length ∧ (entry.observe simd h (b.take k) 0 s).code = .ok (err .partialData)} a.length := by
  have hans : ∀ {a : List Byte}, a.length < 2 ^ 31 →
      (entry.observe simd h a 0 s).code = .ok (answer entry.line a 0).code :=
    fun ha => entry.observe_code simd hn ha (Nat.zero_le _) s
  obtain rfl : (answer entry.line b 0).code = code := Except.ok.inj ((hans hb).symm.trans hcode)
  obtain ⟨e, he, hans'⟩ : ∃ e, e ≠ .partialData ∧ (answer entry.line b 0).code = err e := by
    rcases code_definite entry.grammar hmore with ⟨n, -, hn'⟩ | h
    · omega
    · exact h
  obtain ⟨a, c, rest, o, st, o', m, hsplit, hlive, hstep, hgreatest⟩ := longest_live he hans'
  refine ⟨e, a, c, rest, o, st, o', m, hans', hsplit, hlive, hstep, ?_⟩
  convert hgreatest using 3 with k
  refine and_congr_right fun hk => ?_
  rw [hans (by rw [List.length_take]; omega), Except.ok.injEq]

/-- **The error code names the first offending byte.** -/
theorem parseRequest_offence (simd : Simd) {h : Handler σ} (hn : h.NeverRejects) {b : List Byte}
    (hb : b.length < 2 ^ 31) (s : σ) {code : Int} (hcode : (Entry.request.observe simd h b 0 s).code = .ok code)
    (hneg : code < 0) (hmore : code ≠ err .partialData) :
    ∃ e p c, code = err e ∧
      IsGreatest {k | k ≤ b.length ∧ (Entry.request.observe simd h (b.take k) 0 s).code = .ok (err .partialData)} p ∧
      p < b.length ∧ b[p]? = some c ∧ (∀ e', Offence Names (b.take p) c e' ↔ e' = e) ∧
      ((b.take p).getLast? = some CR → c ≠ LF) ∧
      e ∈ [ParserError.newLine, .noMethod, .noUri, .noVersion, .noHeaderName, .token] := by
  obtain ⟨e, a, c, rest, o, st, o', m, rfl, rfl, hlive, hstep, hgreatest⟩ :=
    Entry.request.refused_at simd hn hb s hcode hneg hmore
  have htake : (a ++ c :: rest).take a.length = a := List.take_left' rfl
  have hoffence := @offence_iff Names a c e id (headStep_refused (read_live (g := requestGrammar) hlive) hstep)
    fun _ => names_unique hlive hstep
  refine ⟨e, a.length, c, rfl, hgreatest, ?_, ?_, ?_, ?_, ?_⟩
  · rw [List.length_append, List.length_cons]
    omega
  · rw [List.getElem?_append_right (Nat.le_refl _), Nat.sub_self, List.getElem?_cons_zero]
  · rwa [htake]
  · rw [htake]
    exact fun hlast => ((read_afterCR hlive hlast).step hstep).2
  · have hself := (hoffence e).2 rfl
    cases e <;> first | exact hself.elim | simp

/-- A header line without a name. -/
def namelessHeader : List Byte := ascii "GET / HTTP/1.0\na: b\n: c\n"

theorem parseRequest_offence_nameless :
    ∃ e p c, (-7 : Int) = err e ∧
      IsGreatest {k | k ≤ namelessHeader.length ∧
        (Entry.request.observe .unrolled Handler.recorder (namelessHeader.take k) 0 ()).code =
          .ok (err .partialData)} p ∧
      p < namelessHeader.length ∧ namelessHeader[p]? = some c ∧
      (∀ e', Offence Names (namelessHeader.take p) c e' ↔ e' = e) ∧
      ((namelessHeader.take p).getLast? = some CR → c ≠ LF) ∧
      e ∈ [ParserError.newLine, .noMethod, .noUri, .noVersion, .noHeaderName, .token] :=
  parseRequest_offence .unrolled Handler.recorder_neverRejects (by decide) () (by decide +kernel) (by decide)
    (by decide)

end Httparsed
