import Httparsed.Final

/-!
# Where a head can end

`watch` follows the line ends of a buffer and notices an empty line. The reader keeps in step with it
(`Tracked`): in the middle of a head it has never seen one, with one exception. The status code is only looked
at together with the byte after it, so up to three bytes of any kind wait there, two line ends included.
-/

namespace Httparsed

open Transducer Grammar

/-! ## Watching the line ends -/

/-- What the last bytes were: nothing of interest, a line end, a line end and a CR, an empty line. -/
inductive Watch where
  | inside
  | lineEnd
  | lineEndCR
  | blankLine
  deriving DecidableEq, Repr

def Watch.next : Watch → Byte → Watch
  | .inside, c => if c = LF then .lineEnd else .inside
  | .lineEnd, c => if c = LF then .blankLine else if c = CR then .lineEndCR else .inside
  | .lineEndCR, c => if c = LF then .blankLine else .inside
  | .blankLine, _ => .blankLine

def watch (w : List Byte) : Watch := w.foldl Watch.next .inside

/-- An empty line after some line end. -/
def HasBlankLine (b : List Byte) : Prop := [LF, LF] <:+: b ∨ [LF, CR, LF] <:+: b

theorem watch_append (w : List Byte) (c : Byte) : watch (w ++ [c]) = (watch w).next c := by
  simp only [watch, List.foldl_append, List.foldl_cons, List.foldl_nil]

theorem foldl_blankLine (w : List Byte) : w.foldl Watch.next .blankLine = .blankLine := by
  induction w with
  | nil => rfl
  | cons c w ih => exact ih

theorem Watch.next_LF (q : Watch) : q.next LF = .lineEnd ∨ q.next LF = .blankLine := by
  cases q
  · exact Or.inl rfl
  · exact Or.inr rfl
  · exact Or.inr rfl
  · exact Or.inr rfl

/-- The watcher does not miss an empty line. -/
theorem watch_of_blankLine {b : List Byte} (h : HasBlankLine b) : watch b = .blankLine := by
  rcases h with ⟨pre, post, rfl⟩ | ⟨pre, post, rfl⟩
  · have hstep : (Watch.next (Watch.next (watch pre) LF) LF) = .blankLine := by
      rcases Watch.next_LF (watch pre) with hq | hq <;> rw [hq] <;> rfl
    simp only [watch, List.foldl_append, List.foldl_cons, List.foldl_nil] at hstep ⊢
    rw [hstep]
    exact foldl_blankLine post
  · have hstep : (Watch.next (Watch.next (Watch.next (watch pre) LF) CR) LF) = .blankLine := by
      rcases Watch.next_LF (watch pre) with hq | hq <;> rw [hq] <;> rfl
    simp only [watch, List.foldl_append, List.foldl_cons, List.foldl_nil] at hstep ⊢
    rw [hstep]
    exact foldl_blankLine post

theorem Watch.next_inside {c : Byte} (h : c ≠ LF) : Watch.inside.next c = .inside := if_neg h

theorem Watch.next_lineEnd {c : Byte} (h : c ≠ LF) (h' : c ≠ CR) : Watch.lineEnd.next c = .inside :=
  (if_neg h).trans (if_neg h')

theorem Watch.inside_next_ne (c : Byte) : Watch.inside.next c ≠ .blankLine := by
  simp only [Watch.next]
  split_ifs <;> decide

theorem Watch.eq_LF_of_lineEnd {c : Byte} (h : Watch.lineEnd.next c = .blankLine) : c = LF := by
  simp only [Watch.next] at h
  split_ifs at h with h1
  exact h1

/-- A byte that is neither CR nor LF leads inside a line. -/
theorem Watch.next_plain {q : Watch} (hq : q = .inside ∨ q = .lineEnd) {c : Byte} (h : c ≠ CR ∧ c ≠ LF) :
    q.next c = .inside := by
  rcases hq with rfl | rfl
  · exact Watch.next_inside h.2
  · exact Watch.next_lineEnd h.2 h.1

/-! ## Header lines keep in step -/

/-- The watcher at a place of a header line. -/
def HeaderPhase.Tracks : HeaderPhase → Watch → Prop
  | .lineStart _, q => q = .lineEnd
  | .closingCR, q => q = .lineEndCR
  | _, q => q = .inside

/-- The watcher after a step of a header line: where the reader is, or at a line end. -/
def LineKept (q : Watch) : Next HeaderPhase (Except ParserError LineEnd) → Prop
  | .more phase => phase.Tracks q
  | .halt (.ok (.header _ _)) => q = .lineEnd
  | .halt _ => True

section

variable {p : Nat} {c : Byte} {q : Watch}

theorem stepName_tracks (acc : Slice) (hq : q = .inside ∨ q = .lineEnd) : LineKept (q.next c) (stepName acc c).2 := by
  unfold stepName
  split_ifs with h1 h2 h3
  · obtain ⟨-, -, h4, h5, -⟩ := tokenByte_plain h1
    exact Watch.next_plain hq ⟨h4, h5⟩
  · trivial
  · subst h2
    exact Watch.next_plain hq ⟨by decide, by decide⟩
  · trivial

theorem stepValue_tracks (nm : Option Slice) (acc : Slice) (hq : q = .inside ∨ (q = .lineEnd ∧ c ≠ CR ∧ c ≠ LF)) :
    LineKept (q.next c) (stepValue nm acc c).2 := by
  unfold stepValue
  split_ifs with h1 h2 h3
  · exact Watch.next_plain (hq.imp_right And.left) (textByte_plain h1)
  · subst h2
    rcases hq with rfl | ⟨-, hc, -⟩
    · rfl
    · exact absurd rfl hc
  · subst h3
    rcases hq with rfl | ⟨-, -, hc⟩
    · rfl
    · exact absurd rfl hc
  · trivial

/-- One step of a header line, and the watcher. -/
theorem lineStep_tracks {phase : HeaderPhase} (hq : phase.Tracks q) : LineKept (q.next c) (lineStep p phase c).2 := by
  cases phase with
  | lineStart hasHeader =>
    obtain rfl : q = .lineEnd := hq
    simp only [lineStep]
    split_ifs with h1 h2 h3
    · subst h1
      rfl
    · trivial
    · exact stepValue_tracks none _ (Or.inr ⟨rfl, h1, h2⟩)
    · exact stepName_tracks _ (Or.inr rfl)
  | closingCR =>
    simp only [lineStep]
    split_ifs <;> trivial
  | name acc => exact stepName_tracks acc (Or.inl hq)
  | blanks nm =>
    obtain rfl : q = .inside := hq
    simp only [lineStep]
    split_ifs with h1
    · exact Watch.next_inside (textByte_plain (textByte_of_blank (blank_iff.2 h1))).2
    · exact stepValue_tracks (some nm) _ (Or.inl rfl)
  | value nm acc => exact stepValue_tracks nm acc (Or.inl hq)
  | valueCR nm acc =>
    obtain rfl : q = .inside := hq
    simp only [lineStep]
    split_ifs with h1
    · subst h1
      rfl
    · trivial

end

/-! ## Start lines keep in step -/

/-- A start line and the watcher: the reader may start inside or after a line end, and ends after one. -/
structure Tracked (l : StartLine) where
  Tracks : l.State → Watch → Prop
  begins : ∀ p, Tracks (l.start p) .inside ∧ Tracks (l.start p) .lineEnd
  step : ∀ p s c q s', Tracks s q → (l.step p s c).2 = .more s' → Tracks s' (q.next c)
  ends : ∀ p s c q u, Tracks s q → (l.step p s c).2 = .halt (.ok u) → q.next c = .lineEnd

def RequestState.Tracks : RequestState → Watch → Prop
  | .method _, q => q = .inside ∨ q = .lineEnd
  | _, q => q = .inside

/-- What waits in `code` has been watched as well. -/
def StatusState.Tracks : StatusState → Watch → Prop
  | .version _, q => q = .inside ∨ q = .lineEnd
  | .code acc, q => q = acc.bytes.foldl Watch.next .inside
  | _, q => q = .inside

section

variable {p : Nat} {c : Byte} {q : Watch}

theorem requestStep_tracks {s s' : RequestState} (hq : s.Tracks q) (hs : (requestStep p s c).2 = .more s') :
    s'.Tracks (q.next c) := by
  cases s with
  | method acc =>
    simp only [requestStep, stepMethod] at hs
    split_ifs at hs with h1 h2 h3 <;> cases hs
    · obtain ⟨-, -, h4, h5, -⟩ := tokenByte_plain h1
      exact Or.inl (Watch.next_plain hq ⟨h4, h5⟩)
    · subst h2
      exact Watch.next_plain hq ⟨by decide, by decide⟩
  | methodSpaces =>
    obtain rfl : q = .inside := hq
    simp only [requestStep, stepUri] at hs
    split_ifs at hs with h1 h2 h3 <;> cases hs
    · exact Watch.next_inside fun h => h1 (Or.inr h)
    · exact Watch.next_inside fun h => h1 (Or.inr h)
  | uri acc =>
    obtain rfl : q = .inside := hq
    simp only [requestStep, stepUri] at hs
    split_ifs at hs with h1 h2 <;> cases hs
    · exact Watch.next_inside (uriByte_plain h1).2.2
    · subst h2
      rfl
  | uriSpaces =>
    obtain rfl : q = .inside := hq
    simp only [requestStep, stepVersion] at hs
    split_ifs at hs with h1 h2 h3 <;> cases hs
    · exact Watch.next_inside fun h => h1 (Or.inr h)
    · exact Watch.next_inside fun h => h1 (Or.inr h)
    · exact absurd (Or.inl ‹_›) h1
  | version acc =>
    obtain rfl : q = .inside := hq
    simp only [requestStep, stepVersion] at hs
    split_ifs at hs with h1 h2 <;> cases hs
    · exact Watch.next_inside (versionByte_plain h1).2.2
    · subst h2
      rfl
  | versionCR =>
    simp only [requestStep] at hs
    split_ifs at hs

theorem requestStep_tracks_end {s : RequestState} {u : PUnit} (hq : s.Tracks q)
    (hs : (requestStep p s c).2 = .halt (.ok u)) : q.next c = .lineEnd := by
  obtain rfl := requestStep_ends p s c u hs
  cases s with
  | method acc =>
    simp only [requestStep, stepMethod] at hs
    split_ifs at hs <;> cases hs
  | _ =>
    obtain rfl : q = .inside := hq
    rfl

/-- Three digits have no line end among them. -/
theorem watch_digits (k : Code) : k.bytes.foldl Watch.next .inside = .inside := by
  have h1 := (digit_plain k.digit₁).2.2
  have h2 := (digit_plain k.digit₂).2.2
  have h3 := (digit_plain k.digit₃).2.2
  simp only [Code.bytes, List.foldl_cons, List.foldl_nil, Watch.next_inside h1, Watch.next_inside h2,
    Watch.next_inside h3]

theorem stepText_tracks {acc : Slice} {s' : StatusState} (hs : (stepText acc c).2 = .more s') :
    s'.Tracks (Watch.inside.next c) := by
  unfold stepText at hs
  split_ifs at hs with h1 h2 <;> cases hs
  · exact Watch.next_inside (textByte_plain h1).2
  · subst h2
    rfl

theorem statusStep_tracks {s s' : StatusState} (hq : s.Tracks q) (hs : (statusStep p s c).2 = .more s') :
    s'.Tracks (q.next c) := by
  cases s with
  | version acc =>
    simp only [statusStep, stepStatusVersion] at hs
    split_ifs at hs with h1 h2 h3 <;> cases hs
    · exact Or.inl (Watch.next_plain hq (versionByte_plain h1).2)
    · subst h2
      exact Watch.next_plain hq ⟨by decide, by decide⟩
  | versionSpaces =>
    obtain rfl : q = .inside := hq
    simp only [statusStep, stepCode_nil] at hs
    split_ifs at hs with h1 h2 <;> cases hs
    · exact Watch.next_inside fun h => h1 (Or.inr h)
    · rfl
  | code acc =>
    obtain rfl : q = acc.bytes.foldl Watch.next .inside := hq
    have hs' : stepCode p acc c = ((stepCode p acc c).1, .more s') := Prod.ext rfl hs
    rcases stepCode_inv hs' with ⟨-, -, h2⟩ | ⟨e, h2⟩ | ⟨k, hk, hc, -, h2⟩
    · cases h2
      simp only [StatusState.Tracks, Slice.push_bytes, List.foldl_append, List.foldl_cons, List.foldl_nil]
    · cases h2
    · rw [hk, watch_digits]
      exact stepText_tracks h2.symm
  | text acc =>
    obtain rfl : q = .inside := hq
    exact stepText_tracks hs
  | textCR =>
    simp only [statusStep] at hs
    split_ifs at hs

theorem statusStep_tracks_end {s : StatusState} {u : PUnit} (hq : s.Tracks q)
    (hs : (statusStep p s c).2 = .halt (.ok u)) : q.next c = .lineEnd := by
  obtain rfl := statusStep_ends p s c u hs
  cases s with
  | version acc =>
    simp only [statusStep, stepStatusVersion] at hs
    split_ifs at hs <;> cases hs
  | code acc =>
    obtain rfl : q = acc.bytes.foldl Watch.next .inside := hq
    have hs' : stepCode p acc LF = ((stepCode p acc LF).1, .halt (.ok u)) := Prod.ext rfl hs
    rcases stepCode_inv hs' with ⟨-, -, h2⟩ | ⟨e, h2⟩ | ⟨k, hk, -, -, -⟩
    · cases h2
    · cases h2
    · rw [hk, watch_digits]
      rfl
  | _ =>
    obtain rfl : q = .inside := hq
    rfl

end

def requestTracked : Tracked requestLine where
  Tracks := RequestState.Tracks
  begins := fun _ => ⟨Or.inl rfl, Or.inr rfl⟩
  step := fun _ _ _ _ _ hq hs => requestStep_tracks hq hs
  ends := fun _ _ _ _ _ hq hs => requestStep_tracks_end hq hs

def statusTracked : Tracked statusLine where
  Tracks := StatusState.Tracks
  begins := fun _ => ⟨Or.inl rfl, Or.inr rfl⟩
  step := fun _ _ _ _ _ hq hs => statusStep_tracks hq hs
  ends := fun _ _ _ _ _ hq hs => statusStep_tracks_end hq hs

/-! ## Whole heads keep in step -/

/-- The watcher at a place of a head. -/
def HeadState.Tracks {l : StartLine} (t : Tracked l) (q : Watch) : HeadState l → Prop
  | .inl .begin => q = .inside
  | .inl .beginCR => q = .inside
  | .inl (.line _ s) => t.Tracks s q
  | .inr s => s.phase.Tracks q

/-- The reader of heads and the watcher stay in step. -/
theorem headStep_tracks {l : StartLine} (t : Tracked l) :
    Preserved (headStep l) 0 fun w _ s => HeadState.Tracks t (watch w) s := by
  intro w o s c o' s' hq hs
  rw [watch_append]
  generalize watch w = q at hq
  generalize 0 + w.length = p at hs
  cases s with
  | inl s =>
    have hline : ∀ (m : Nat) (x : l.State), t.Tracks x q →
        (∀ s₁, tagged m (l.step p x c) = (o', .more s₁) → HeadState.Tracks t (q.next c) (.inl s₁)) ∧
          ∀ u, tagged m (l.step p x c) = (o', .halt (.ok u)) →
            HeadState.Tracks t (q.next c) (.inr (headerStart (p + 1))) := by
      intro m x hx
      constructor
      · intro s₁ ht
        obtain ⟨o₁, x', hl, -, rfl⟩ := tagged_more ht
        exact t.step p x c q x' hx (by rw [hl])
      · intro u ht
        obtain ⟨o₁, hl, -⟩ := tagged_ok ht
        exact t.ends p x c q u hx (by rw [hl])
    have hfirst : ∀ {m : Nat} {x : l.State},
        ((s = .begin ∧ m = 0 ∧ x = l.start p ∧ c ≠ CR ∧ c ≠ LF) ∨ s = .line m x) → t.Tracks x q := by
      rintro m x (⟨rfl, -, rfl, -⟩ | rfl)
      · obtain rfl : q = .inside := hq
        exact (t.begins p).1
      · exact hq
    rcases seq_inl_more hs with ⟨s₁, hl, rfl⟩ | ⟨u, hl, rfl⟩
    · rcases leadStep_cases hl with ⟨rfl, rfl, -, hn⟩ | ⟨hs', rfl, -, hn⟩ | ⟨-, -, -, hn⟩ | ⟨m, x, hs', ht⟩
      · cases hn
        obtain rfl : q = .inside := hq
        rfl
      · cases hn
        rcases hs' with rfl | rfl
        all_goals
          obtain rfl : q = .inside := hq
          exact (t.begins _).2
      · cases hn
      · exact (hline m x (hfirst hs')).1 s₁ ht
    · rcases leadStep_cases hl with ⟨-, -, -, hn⟩ | ⟨-, -, -, hn⟩ | ⟨-, -, -, hn⟩ | ⟨m, x, hs', ht⟩
      · cases hn
      · cases hn
      · cases hn
      · exact (hline m x (hfirst hs')).2 u ht
  | inr s =>
    obtain ⟨s₁, hs', rfl⟩ := seq_inr_more hs
    have hkept := lineStep_tracks (p := p) (c := c) (show s.phase.Tracks q from hq)
    rcases headerStep_more hs' with ⟨o₁, phase', hl, -, rfl⟩ | ⟨o₁, nm, v, hl, -, rfl⟩
    · rw [hl] at hkept
      exact hkept
    · rw [hl] at hkept
      exact hkept

theorem read_live_tracks {l : StartLine} (t : Tracked l) {b : List Byte} {o : List (Nat × Event Slice)}
    {s : HeadState l}
    (h : read l b 0 = (o, .live s)) : HeadState.Tracks t (watch b) s :=
  run_inv_live (headStep_tracks t) (show HeadState.Tracks t (watch []) (.inl .begin) from rfl) h

theorem HeaderPhase.no_blankLine {phase : HeaderPhase} : ¬ phase.Tracks .blankLine := by
  intro h
  cases phase <;> cases h

/-- No request is still being read behind an empty line. -/
theorem request_no_blankLine {s : HeadState requestLine} : ¬ HeadState.Tracks requestTracked .blankLine s := by
  intro h
  rcases s with (_ | _ | ⟨m, t⟩) | s
  · cases h
  · cases h
  · cases t with
    | method acc => rcases h with h | h <;> cases h
    | _ => cases h
  · exact HeaderPhase.no_blankLine h

/-! ## Responses: a status code that is too short -/

/-- `[EOL] version SP+ c LF LF` and nothing behind it: the look-ahead for the status code wants a fourth byte. -/
def ShortStatus (b : List Byte) : Prop :=
  ∃ (lead : Option Eol) (v : Word versionByte) (g : Spaces) (c : Byte), c ≠ SP ∧ c ≠ CR ∧ c ≠ LF ∧
    b = leadBytes lead ++ (v.bytes ++ (g.bytes ++ [c, LF, LF]))

/-- Three waiting bytes with an empty line among them are a byte and two LFs. -/
theorem code_blankLine {c : Byte} {cs : List Byte} (hc : c ≠ LF) (hcs : cs.length ≤ 2)
    (h : (c :: cs).foldl Watch.next .inside = .blankLine) : cs = [LF, LF] := by
  rw [List.foldl_cons, Watch.next_inside hc] at h
  rcases cs with _ | ⟨d, _ | ⟨e, _ | ⟨f, cs⟩⟩⟩
  · cases h
  · exact absurd h (Watch.inside_next_ne d)
  · by_cases hd : d = LF
    · subst hd
      rw [Watch.eq_LF_of_lineEnd h]
    · rw [List.foldl_cons, Watch.next_inside hd] at h
      exact absurd h (Watch.inside_next_ne e)
  · simp only [List.length_cons] at hcs
    omega

/-- A response still being read behind an empty line waits for its status code. -/
theorem response_blankLine {b : List Byte} {o : List (Nat × Event Slice)} {s : HeadState statusLine}
    (hq : HeadState.Tracks statusTracked .blankLine s) (hr : HeadState.Reads statusGrammar b o s) : ShortStatus b := by
  rcases s with (_ | _ | ⟨m, t⟩) | s
  · cases hq
  · cases hq
  · obtain ⟨lead, w', o', -, rfl, -, hreads, -⟩ := hr
    cases t with
    | code acc =>
      obtain ⟨v, g, c, cs, rfl, -, hacc, h1, h2, h3, hcs, -⟩ := hreads
      have hblank : Watch.blankLine = acc.bytes.foldl Watch.next .inside := hq
      rw [hacc] at hblank
      obtain rfl := code_blankLine h3 hcs hblank.symm
      exact ⟨lead, v, g, c, h1, h2, h3, by rw [hacc, List.append_assoc]⟩
    | version acc => rcases hq with hq | hq <;> cases hq
    | _ => cases hq
  · exact absurd hq HeaderPhase.no_blankLine

/-- The look-ahead keeps a short status waiting. -/
theorem read_shortStatus {b : List Byte} (h : ShortStatus b) :
    HasBlankLine b ∧ ∃ o s, read statusLine b 0 = (o, .live s) := by
  obtain ⟨lead, v, g, c, h1, h2, h3, rfl⟩ := h
  constructor
  · refine Or.inl ⟨leadBytes lead ++ (v.bytes ++ (g.bytes ++ [c])), [], ?_⟩
    simp
  · obtain ⟨d, ds, hv, hd, -⟩ := Word.exists_cons v
    have hline := run_statusVersion (leadBytes lead).length v g ⟨h1, h2, h3⟩ [LF, LF]
    have hwait : ∀ q, run statusStep q (.code ⟨q, []⟩) [c, LF, LF] = ([], .live (.code ⟨q, [c, LF, LF]⟩)) :=
      fun _ => rfl
    rw [hwait] at hline
    have hlead : run (headStep statusLine) 0 (.inl .begin)
        (leadBytes lead ++ d :: (ds ++ (g.bytes ++ [c, LF, LF]))) = _ :=
      run_leadBytes lead (versionByte_plain hd).2
    rw [← List.cons_append, ← hv, run_headStep_line] at hlead
    have hhead : read statusLine (leadBytes lead ++ (v.bytes ++ (g.bytes ++ [c, LF, LF]))) 0 = _ :=
      (if_pos rfl).trans hlead
    have hrun : run statusLine.step (leadBytes lead).length (statusLine.start (leadBytes lead).length)
        (v.bytes ++ (g.bytes ++ [c, LF, LF])) = _ := hline
    rw [hrun] at hhead
    exact ⟨_, _, hhead⟩

/-- **A response whose header section has ended is answered definitely, unless its status is a single byte in
front of two LFs**: then the parser asks for more. -/
theorem parseResponse_ended (simd : Simd) {σ : Type} {h : Handler σ} (hn : h.NeverRejects) {b : List Byte}
    (hb : b.length < 2 ^ 31) (s : σ) :
    (HasBlankLine b →
      (Entry.response.observe simd h b 0 s).code ≠ .ok (err .partialData) ∧
      ((∃ n : Nat, 0 < n ∧ (Entry.response.observe simd h b 0 s).code = .ok (n : Int)) ∨
        ∃ e : ParserError, e ≠ .partialData ∧ (Entry.response.observe simd h b 0 s).code = .ok (err e))) ↔
      ¬ ShortStatus b := by
  have hcode : ∀ n : Int, (Entry.response.observe simd h b 0 s).code = .ok n ↔ (answer statusLine b 0).code = n := by
    intro n
    rw [Entry.response.observe_code simd hn hb (Nat.zero_le _) s, Except.ok.injEq]
    rfl
  constructor
  · intro hended hshort
    obtain ⟨hblank, hlive⟩ := read_shortStatus hshort
    exact (hended hblank).1 ((hcode _).2 (code_partial_iff.2 hlive))
  · intro hshort hblank
    have hmore : (answer statusLine b 0).code ≠ err .partialData := by
      intro hp
      obtain ⟨o, st, hlive⟩ := code_partial_iff.1 hp
      have htracks := read_live_tracks statusTracked hlive
      rw [watch_of_blankLine hblank] at htracks
      exact hshort (response_blankLine htracks (read_live (g := statusGrammar) hlive))
    refine ⟨fun hp => hmore ((hcode _).1 hp), ?_⟩
    rcases code_definite statusGrammar hmore with ⟨n, hpos, hn⟩ | ⟨e, he, hres⟩
    · exact Or.inl ⟨n, hpos, (hcode _).2 hn⟩
    · exact Or.inr ⟨e, he, (hcode _).2 hres⟩

/-- "HTTP/1.1 2" and an empty line: with CRLFs the answer is `status`, with LFs it is `partial`. -/
theorem parseResponse_ended_short :
    HasBlankLine (ascii "HTTP/1.1 2\n\n") ∧
    (Entry.response.observe .unrolled Handler.recorder (ascii "HTTP/1.1 2\n\n") 0 ()).code = .ok (err .partialData) ∧
    (Entry.response.observe .unrolled Handler.recorder (ascii "HTTP/1.1 2\r\n\r\n") 0 ()).code = .ok (err .status) :=
  ⟨Or.inl ⟨ascii "HTTP/1.1 2", [], rfl⟩, by decide +kernel, by decide +kernel⟩

theorem parseResponse_ended_twoDigits : ¬ ShortStatus (ascii "HTTP/1.1 20\n\n") :=
  (parseResponse_ended .unrolled Handler.recorder_neverRejects (b := ascii "HTTP/1.1 20\n\n") (by decide) ()).1
    fun _ => ⟨by decide +kernel, Or.inr ⟨.status, by decide, by decide +kernel⟩⟩

end Httparsed
