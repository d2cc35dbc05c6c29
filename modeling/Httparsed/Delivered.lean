import Httparsed.Callbacks
import Httparsed.Lib.Layout
import Mathlib.Data.List.Flatten

/-!
# Whatever is delivered is clean

A callback is made before the rest of its line is known, so what is said of it cannot come from the grammar
of heads: it is an invariant of every state of the reader (`Delivered`), of live ones and at the byte a line is
refused with. What both start lines have to show for it is `Delivers`; header lines are reported one whole
line at a time (`lines_delivered`). The main result is `delivered_clean`.
-/

namespace Httparsed

open Transducer Grammar Layout

variable {σ : Type}

/-! ## Clean callbacks -/

/-- No control byte but HT. -/
def Printable (c : Byte) : Prop := isControl c = true → c = HT

/-- What the application may rely on, callback by callback. -/
def Event.Tidy : Event Slice → Prop
  | .onMethod method => method.bytes ≠ [] ∧ ∀ c ∈ method.bytes, inRanges tokenRanges c = false
  | .onUri uri => uri.bytes ≠ [] ∧ ∀ c ∈ uri.bytes, 0x20 < c ∧ c ≠ 0x7F
  | .onVersion ver => ver.bytes ≠ [] ∧ ∀ c ∈ ver.bytes, versionByte c = true
  | .onHeader name value =>
    (∀ n ∈ name, n.bytes ≠ [] ∧ ∀ c ∈ n.bytes, inRanges tokenRanges c = false) ∧ (∀ c ∈ value.bytes, Printable c) ∧
      (∀ c ∈ value.bytes.getLast?, c ≠ SP ∧ c ≠ HT) ∧
      (name.isSome = true → ∀ c ∈ value.bytes.head?, c ≠ SP ∧ c ≠ HT)
  | .onStatus status => 0 ≤ status ∧ status ≤ 999
  | .onStatusMsg statusMsg => statusMsg.bytes ≠ [] ∧ statusMsg.bytes.head? ≠ some SP ∧ ∀ c ∈ statusMsg.bytes, Printable c

/-- Outside `tokenRanges` there is no control byte, no SP, no colon, and nothing from 0x7F on. -/
theorem tokenRanges_outside :
    ∀ c : Byte, inRanges tokenRanges c = false → 0x20 < c ∧ c < 0x7F ∧ c ≠ COLON ∧ c ≠ CR ∧ c ≠ LF :=
  forall_byte (by decide +kernel)

theorem uriByte_outside : ∀ c : Byte, uriByte c = true → 0x20 < c ∧ c ≠ 0x7F :=
  forall_byte (by decide +kernel)

def Slice.piece (s : Slice) : Piece Byte := (s.ptr, s.bytes)

/-- The slices of a callback, in the order of their offsets. -/
def Event.pieces : Event Slice → List (Piece Byte)
  | .onMethod method => [method.piece]
  | .onUri uri => [uri.piece]
  | .onVersion ver => [ver.piece]
  | .onHeader name value => name.toList.map Slice.piece ++ [value.piece]
  | .onStatus _ => []
  | .onStatusMsg statusMsg => [statusMsg.piece]

/-- Having read `w` from offset `p` on, the callbacks `o` have been made: each clean, and their slices laid out
in `w`. -/
structure Delivered (p : Nat) (w : List Byte) (o : List (Event Slice)) : Prop where
  tidy : ∀ e ∈ o, e.Tidy
  laid : Laid p w (o.flatMap Event.pieces)

namespace Delivered

variable {p : Nat} {w : List Byte} {o : List (Event Slice)} {e : Event Slice}

theorem nil (p : Nat) (w : List Byte) : Delivered p w [] := ⟨fun _ h => absurd h List.not_mem_nil, Laid.nil p w⟩

theorem grow (h : Delivered p w o) (v : List Byte) : Delivered p (w ++ v) o := ⟨h.tidy, h.laid.grow v⟩

theorem shift (v : List Byte) (h : Delivered (p + v.length) w o) : Delivered p (v ++ w) o :=
  ⟨h.tidy, h.laid.shift v⟩

theorem sublist {o' : List (Event Slice)} (h : Delivered p w o') (ho : o.Sublist o') : Delivered p w o :=
  ⟨fun e he => h.tidy e (ho.subset he), h.laid.sublist (ho.flatMap _)⟩

theorem append {v : List Byte} {o' : List (Event Slice)} (h : Delivered p w o) (h' : Delivered (p + w.length) v o') :
    Delivered p (w ++ v) (o ++ o') := by
  constructor
  · intro e he
    exact (List.mem_append.1 he).elim (h.tidy e) (h'.tidy e)
  · rw [List.flatMap_append]
    exact h.laid.append h'.laid

/-- A callback with one slice, which was read last. -/
theorem snoc (h : Delivered p w o) (he : e.Tidy) {bs : List Byte} (hp : e.pieces = [(p + w.length, bs)])
    {v : List Byte} (hv : v ≠ []) : Delivered p (w ++ (bs ++ v)) (o ++ [e]) := by
  constructor
  · intro e' h'
    rcases List.mem_append.1 h' with h' | h'
    · exact h.tidy e' h'
    · rw [List.mem_singleton.1 h']
      exact he
  · rw [List.flatMap_append, List.flatMap_singleton, hp]
    exact h.laid.snoc bs hv

/-- A callback without a slice. -/
theorem snoc_bare (h : Delivered p w o) (he : e.Tidy) (hp : e.pieces = []) : Delivered p w (o ++ [e]) := by
  constructor
  · intro e' h'
    rcases List.mem_append.1 h' with h' | h'
    · exact h.tidy e' h'
    · rw [List.mem_singleton.1 h']
      exact he
  · rw [List.flatMap_append, List.flatMap_singleton, hp, List.append_nil]
    exact h.laid

end Delivered

/-- What a start line has to show: its callbacks are clean in every state, and at the byte it is refused with. -/
structure Delivers {l : StartLine} (g : StartGrammar l) : Prop where
  live : ∀ {p w o s}, g.Reads p w o s → Delivered p w o
  refused : ∀ {p w o s c o' e}, g.Reads p w o s → l.step (p + w.length) s c = (o', .halt (.error e)) →
    Delivered p (w ++ [c]) (o ++ o')
  phrase : ∀ p ph, Delivered p (g.bytes ph) (g.events p ph)

/-! ## The request line -/

theorem word_tidy {m : Word tokenByte} : m.bytes ≠ [] ∧ ∀ c ∈ m.bytes, inRanges tokenRanges c = false :=
  ⟨m.nonempty, fun c hc => by simpa [tokenByte] using m.all c hc⟩

section

variable (p : Nat) (m : Word tokenByte) (u : Word uriByte) (v : Word versionByte) {g g' e : List Byte}

theorem method_delivered (hg : g ≠ []) : Delivered p (m.bytes ++ g) [.onMethod ⟨p, m.bytes⟩] :=
  (Delivered.nil p []).snoc (e := .onMethod ⟨p, m.bytes⟩) word_tidy rfl hg

theorem uri_delivered (hg : g ≠ []) (hg' : g' ≠ []) :
    Delivered p (m.bytes ++ g ++ u.bytes ++ g')
      [.onMethod ⟨p, m.bytes⟩, .onUri ⟨p + (m.bytes ++ g).length, u.bytes⟩] := by
  have htidy : (Event.onUri ⟨p + (m.bytes ++ g).length, u.bytes⟩ : Event Slice).Tidy :=
    ⟨u.nonempty, fun c hc => uriByte_outside c (u.all c hc)⟩
  have h := (method_delivered p m hg).snoc htidy rfl hg'
  rwa [← List.append_assoc] at h

theorem version_delivered (hg : g ≠ []) (hg' : g' ≠ []) (he : e ≠ []) :
    Delivered p (m.bytes ++ g ++ u.bytes ++ g' ++ v.bytes ++ e)
      [.onMethod ⟨p, m.bytes⟩, .onUri ⟨p + (m.bytes ++ g).length, u.bytes⟩,
        .onVersion ⟨p + (m.bytes ++ g ++ u.bytes ++ g').length, v.bytes⟩] := by
  have htidy : (Event.onVersion ⟨p + (m.bytes ++ g ++ u.bytes ++ g').length, v.bytes⟩ : Event Slice).Tidy :=
    ⟨v.nonempty, v.all⟩
  have h := (uri_delivered p m u hg hg').snoc htidy rfl he
  rwa [← List.append_assoc] at h

end

theorem Eol.nonempty (eol : Eol) : eol.bytes ≠ [] := by cases eol <;> exact List.cons_ne_nil _ _

/-- In every state of a request line the callbacks made so far are clean. -/
theorem requestState_delivered {p : Nat} {w : List Byte} {o : List (Event Slice)} {s : RequestState}
    (h : s.Reads p w o) : Delivered p w o := by
  cases s with
  | method acc =>
    obtain ⟨-, -, rfl⟩ := h
    exact .nil p w
  | methodSpaces =>
    obtain ⟨m, g, rfl, rfl⟩ := h
    exact method_delivered p m g.nonempty
  | uri acc =>
    obtain ⟨m, g, u, rfl, -, rfl⟩ := h
    exact (method_delivered p m g.nonempty).grow _
  | uriSpaces =>
    obtain ⟨m, g, u, g', rfl, rfl⟩ := h
    exact uri_delivered p m u g.nonempty g'.nonempty
  | version acc =>
    obtain ⟨m, g, u, g', v, rfl, -, rfl⟩ := h
    exact (uri_delivered p m u g.nonempty g'.nonempty).grow _
  | versionCR =>
    obtain ⟨m, g, u, g', v, rfl, rfl⟩ := h
    exact version_delivered p m u v g.nonempty g'.nonempty (List.cons_ne_nil _ _)

/-- A byte that refuses a request line makes no callback. -/
theorem requestStep_refused_out {p : Nat} {s : RequestState} {c : Byte} {o : List (Event Slice)} {e : ParserError}
    (h : requestStep p s c = (o, .halt (.error e))) : o = [] := by
  cases s <;> simp only [requestStep, stepMethod, stepUri, stepVersion] at h <;> split_ifs at h <;> cases h <;> rfl

theorem requestGrammar_delivers : Delivers requestGrammar where
  live := requestState_delivered
  refused := by
    intro p w o s c o' e hi hs
    rw [requestStep_refused_out hs, List.append_nil]
    exact (requestState_delivered hi).grow [c]
  phrase := fun p l => version_delivered p l.method l.uri l.version l.gap₁.nonempty l.gap₂.nonempty
    (Eol.nonempty l.eol)

/-! ## The status line -/

theorem digit_bounds : ∀ c : Byte, isDigit c = true → 0 ≤ digit c ∧ digit c ≤ 9 :=
  forall_byte (by decide +kernel)

theorem code_bounds (k : Code) : 0 ≤ k.value ∧ k.value ≤ 999 := by
  have h1 := digit_bounds k.d₁ k.digit₁
  have h2 := digit_bounds k.d₂ k.digit₂
  have h3 := digit_bounds k.d₃ k.digit₃
  unfold Code.value
  omega

theorem Text.printable (t : Text textByte) : ∀ c ∈ t.bytes, Printable c := fun c hc => textByte_control c (t.all c hc)

/-- The reason phrase stands behind the code and the SPs after it. -/
theorem statusMsg_delivered {p : Nat} {w : List Byte} {o : List (Event Slice)} (h : Delivered p w o) (t : Text textByte)
    {e : List Byte} (he : e ≠ []) :
    Delivered p (w ++ t.bytes ++ e) (o ++ statusMsgEvents ⟨p + w.length, t.bytes⟩) := by
  unfold statusMsgEvents
  split_ifs with hnil
  · rw [List.append_nil, List.append_assoc]
    exact h.grow _
  · have htext := @List.takeWhile_append_dropWhile _ (· == SP) t.bytes
    have hsplit : w ++ t.bytes ++ e =
        (w ++ t.bytes.takeWhile (· == SP)) ++ (t.bytes.dropWhile (· == SP) ++ e) := by
      conv_lhs => rw [← htext]
      simp only [List.append_assoc]
    have hhead : (t.bytes.dropWhile (· == SP)).head? ≠ some SP := by
      have hno := List.head?_dropWhile_not (· == SP) t.bytes
      intro hSP
      rw [hSP] at hno
      exact absurd hno (by decide)
    have htidy : (Event.onStatusMsg (Slice.stripLeading (· == SP) ⟨p + w.length, t.bytes⟩)).Tidy :=
      ⟨hnil, hhead, fun c hc => Text.printable t c ((List.dropWhile_sublist _).subset hc)⟩
    rw [hsplit]
    refine (h.grow (t.bytes.takeWhile (· == SP))).snoc htidy ?_ he
    simp [Event.pieces, Slice.piece, Slice.stripLeading, Nat.add_assoc]

section

variable (p : Nat) (v : Word versionByte) {g : List Byte} (k : Code)

theorem statusVersion_delivered (hg : g ≠ []) : Delivered p (v.bytes ++ g) [.onVersion ⟨p, v.bytes⟩] :=
  (Delivered.nil p []).snoc (e := .onVersion ⟨p, v.bytes⟩) ⟨v.nonempty, v.all⟩ rfl hg

theorem status_delivered (hg : g ≠ []) (w : List Byte) :
    Delivered p (v.bytes ++ g ++ w) [.onVersion ⟨p, v.bytes⟩, .onStatus k.value] :=
  ((statusVersion_delivered p v hg).grow w).snoc_bare (e := .onStatus k.value) (code_bounds k) rfl

end

/-- In every state of a status line the callbacks made so far are clean. -/
theorem statusState_delivered {p : Nat} {w : List Byte} {o : List (Event Slice)} {s : StatusState}
    (h : s.Reads p w o) : Delivered p w o := by
  cases s with
  | version acc =>
    obtain ⟨-, -, rfl⟩ := h
    exact .nil p w
  | versionSpaces =>
    obtain ⟨v, g, rfl, rfl⟩ := h
    exact statusVersion_delivered p v g.nonempty
  | code acc =>
    obtain ⟨v, g, -, -, rfl, -, -, -, -, -, -, rfl⟩ := h
    exact (statusVersion_delivered p v g.nonempty).grow _
  | text acc =>
    obtain ⟨v, g, k, t, rfl, -, -, rfl⟩ := h
    rw [List.append_assoc]
    exact status_delivered p v k g.nonempty _
  | textCR =>
    obtain ⟨v, g, k, t, rfl, -, rfl⟩ := h
    exact statusMsg_delivered (status_delivered p v k g.nonempty k.bytes) t (List.cons_ne_nil _ _)

theorem stepCode_refused_out {p : Nat} {acc : Slice} {c : Byte} {o : List (Event Slice)} {e : ParserError}
    (h : stepCode p acc c = (o, .halt (.error e))) : o = [] ∨ ∃ k : Code, o = [.onStatus k.value] := by
  unfold stepCode at h
  by_cases hlen : acc.bytes.length < 3
  · rw [if_pos hlen] at h
    cases h
  · rw [if_neg hlen] at h
    cases hv : codeValue acc.bytes with
    | none =>
      rw [hv] at h
      cases h
      exact Or.inl rfl
    | some k' =>
      obtain ⟨k, -, rfl⟩ := codeValue_eq_some hv
      rw [hv] at h
      by_cases hc : c ≠ SP ∧ c ≠ CR ∧ c ≠ LF
      · simp only [hc, ne_eq, not_false_eq_true, and_self, ↓reduceIte] at h
        cases h
        exact Or.inr ⟨k, rfl⟩
      · -- a SP or a line end behind three digits is no error
        have hend : c = SP ∨ c = CR ∨ c = LF := by tauto
        simp only [hc, ↓reduceIte] at h
        rcases hend with rfl | rfl | rfl <;> cases h

/-- A byte that refuses a status line makes no callback, or reports the code before it. -/
theorem statusStep_refused_out {p : Nat} {s : StatusState} {c : Byte} {o : List (Event Slice)} {e : ParserError}
    (h : statusStep p s c = (o, .halt (.error e))) : o = [] ∨ ∃ k : Code, o = [.onStatus k.value] := by
  cases s with
  | version acc =>
    simp only [statusStep, stepStatusVersion] at h
    split_ifs at h <;> cases h <;> exact Or.inl rfl
  | versionSpaces =>
    simp only [statusStep] at h
    split_ifs at h
    · cases h
      exact Or.inl rfl
    · cases h
    · exact stepCode_refused_out h
  | code acc => exact stepCode_refused_out h
  | text acc =>
    simp only [statusStep, stepText] at h
    split_ifs at h <;> cases h
    exact Or.inl rfl
  | textCR =>
    simp only [statusStep] at h
    split_ifs at h <;> cases h
    exact Or.inl rfl

theorem statusGrammar_delivers : Delivers statusGrammar where
  live := statusState_delivered
  refused := by
    intro p w o s c o' e hi hs
    have h := (statusState_delivered hi).grow [c]
    rcases statusStep_refused_out hs with rfl | ⟨k, rfl⟩
    · rwa [List.append_nil]
    · exact h.snoc_bare (e := .onStatus k.value) (code_bounds k) rfl
  phrase := fun p l =>
    statusMsg_delivered (status_delivered p l.version l.code l.gap.nonempty l.code.bytes) l.text (Eol.nonempty l.eol)

/-! ## Header lines -/

/-- A value does not end in a blank. -/
theorem stripped_last (w : List Byte) : ∀ c ∈ (w.rdropWhile blank).getLast?, c ≠ SP ∧ c ≠ HT := by
  intro c hc
  have hne : w.rdropWhile blank ≠ [] := by
    intro hnil
    rw [hnil] at hc
    cases hc
  have hlast := List.rdropWhile_last_not blank w hne
  rw [List.getLast?_eq_some_getLast hne] at hc
  obtain rfl := Option.mem_some_iff.1 hc
  rw [blank_iff] at hlast
  exact not_or.1 hlast

/-- Nor does one that was stripped in front begin with a blank. -/
theorem stripped_first (w : List Byte) : ∀ c ∈ ((w.dropWhile blank).rdropWhile blank).head?, c ≠ SP ∧ c ≠ HT := by
  intro c hc
  have hfirst : (w.dropWhile blank).head? = some c := by
    obtain ⟨t, ht⟩ := List.rdropWhile_prefix blank (w.dropWhile blank)
    rw [← ht, List.head?_append, hc]
    rfl
  have hno := List.head?_dropWhile_not blank w
  rw [hfirst] at hno
  exact not_or.1 (blank_false_iff.1 hno)

/-- The value of a line and the blanks that were stripped behind it. -/
theorem value_laid {p : Nat} {w : List Byte} {xs : List (Piece Byte)} (h : Laid p w xs) (value : List Byte)
    (eol : Eol) :
    Laid p (w ++ value ++ eol.bytes) (xs ++ [(p + w.length, value.rdropWhile blank)]) := by
  have hv : value.rtakeWhile blank ++ eol.bytes ≠ [] := List.append_ne_nil_of_right_ne_nil _ (Eol.nonempty eol)
  have hlaid := h.snoc (value.rdropWhile blank) hv
  rwa [← List.append_assoc (value.rdropWhile blank), List.rdropWhile_append_rtakeWhile, ← List.append_assoc] at hlaid

/-- A header line and its callback. -/
theorem line_delivered (p : Nat) (l : Line) : Delivered p l.bytes [l.event p] := by
  obtain ⟨x, eol⟩ := l
  have hvalue : ∀ {raw w : List Byte}, (∀ c ∈ raw, textByte c = true) → w.Sublist raw →
      ∀ c ∈ w.rdropWhile blank, Printable c := fun hraw hw c hc =>
    textByte_control c (hraw c (hw.subset ((List.rdropWhile_prefix blank _).subset hc)))
  constructor
  · intro e he
    rw [List.mem_singleton.1 he]
    cases x with
    | named n raw =>
      refine ⟨?_, hvalue raw.all (List.dropWhile_sublist _), stripped_last _, fun _ => stripped_first raw.bytes⟩
      intro m hm
      obtain rfl := Option.mem_some_iff.1 hm
      exact word_tidy
    | continued raw start =>
      exact ⟨fun m hm => absurd hm (Option.not_mem_none m), hvalue raw.all (List.Sublist.refl _), stripped_last _,
        fun h => absurd h Bool.false_ne_true⟩
  · rw [List.flatMap_singleton]
    cases x with
    | named n raw =>
      have hname : Laid p (n.bytes ++ [COLON]) [(p, n.bytes)] := (Laid.nil p []).snoc n.bytes (List.cons_ne_nil _ _)
      have hlaid := value_laid (hname.grow (raw.bytes.takeWhile blank)) (raw.bytes.dropWhile blank) eol
      have hbytes : n.bytes ++ [COLON] ++ raw.bytes.takeWhile blank ++ raw.bytes.dropWhile blank ++ eol.bytes =
          (Line.mk (.named n raw) eol).bytes := by
        rw [List.append_assoc (n.bytes ++ [COLON]), List.takeWhile_append_dropWhile]
        simp [Line.bytes, Content.bytes]
      have hpos : p + (n.bytes ++ [COLON] ++ raw.bytes.takeWhile blank).length =
          p + n.bytes.length + 1 + (raw.bytes.takeWhile blank).length := by
        simp only [List.length_append, List.length_singleton]
        omega
      rw [hbytes, hpos] at hlaid
      exact hlaid
    | continued raw start => exact value_laid (Laid.nil p []) raw.bytes eol

/-- **Header lines are reported clean**, one after the other. -/
theorem lines_delivered (p : Nat) (ls : List Line) : Delivered p (linesBytes ls) (linesEvents p ls) := by
  induction ls generalizing p with
  | nil => exact .nil p _
  | cons l ls ih => exact (line_delivered p l).append (ih (p + l.bytes.length))

/-! ## Calls -/

section Calls

variable {l : StartLine} {g : StartGrammar l}

theorem map_tagged (m : Nat) (o : List (Event Slice)) : (o.map (Prod.mk m)).map Prod.snd = o := by
  rw [List.map_map]
  exact List.map_id _

/-- A step of the start line, in whatever it ends. -/
theorem tagged_delivered (hg : Delivers g) (lead : Option Eol) {w' : List Byte} {o₁ : List (Event Slice)} {s : l.State}
    {m k : Nat} {c : Byte} (hi : g.Reads (leadBytes lead).length w' o₁ s) {o' : List (Nat × Event Slice)}
    {v : Except (ParserError × Nat) PUnit}
    (hs : tagged m (l.step (0 + (leadBytes lead ++ w').length) s c) = (o', .halt v)) :
    Delivered 0 (leadBytes lead ++ w' ++ [c]) ((o₁.map (Prod.mk k) ++ o').map Prod.snd) := by
  rw [Nat.zero_add, List.length_append] at hs
  rw [List.map_append, map_tagged, List.append_assoc]
  refine Delivered.shift (leadBytes lead) ?_
  rw [Nat.zero_add]
  rcases hl : l.step ((leadBytes lead).length + w'.length) s c with ⟨o₂, s' | e | u⟩
  · rw [hl] at hs
    cases hs
  · rw [hl] at hs
    cases hs
    rw [map_tagged]
    exact hg.refused hi hl
  · rw [hl] at hs
    cases hs
    rw [map_tagged]
    obtain ⟨ph, h1, h2⟩ := g.phrase _ _ _ _ _ _ _ hi hl
    rw [h1, h2]
    exact hg.phrase _ ph

/-- **What the start line delivers is clean**, wherever the buffer ends or goes wrong. -/
theorem run_lead_delivered (hg : Delivers g) (b : List Byte) :
    Delivered 0 b ((run (leadStep l) 0 .begin b).1.map Prod.snd) := by
  have hinv := run_inv (leadStep_preserved (g := g)) (s := .begin) ⟨rfl, rfl⟩ b
  rcases hr : run (leadStep l) 0 .begin b with ⟨o, s | ⟨v, rest⟩⟩
  · rw [hr] at hinv
    cases s with
    | begin =>
      obtain ⟨-, rfl⟩ := hinv
      exact .nil 0 b
    | beginCR =>
      obtain ⟨-, rfl⟩ := hinv
      exact .nil 0 b
    | line m s =>
      obtain ⟨lead, w', o', rfl, rfl, rfl, hreads, -⟩ := hinv
      rw [map_tagged]
      refine Delivered.shift (leadBytes lead) ?_
      rw [Nat.zero_add]
      exact hg.live hreads
  · rw [hr] at hinv
    obtain ⟨a, c, o₁, o₂, s, rfl, rfl, hi, hs⟩ := hinv
    have hgrow : ∀ {o : List (Event Slice)}, Delivered 0 (a ++ [c]) o → Delivered 0 (a ++ c :: rest) o := by
      intro o h
      have := h.grow rest
      rwa [List.append_assoc] at this
    apply hgrow
    rcases leadStep_cases hs with ⟨-, -, -, hn⟩ | ⟨-, -, -, hn⟩ | ⟨rfl, -, rfl, -⟩ | ⟨m, x, hs', ht⟩
    · cases hn
    · cases hn
    · obtain ⟨-, rfl⟩ := hi
      exact .nil 0 _
    · rcases hs' with ⟨rfl, rfl, rfl, -⟩ | rfl
      · obtain ⟨rfl, rfl⟩ := hi
        exact tagged_delivered hg none (k := 0) (g.begins 0) ht
      · obtain ⟨lead, w', o', rfl, rfl, rfl, hreads, -⟩ := hi
        exact tagged_delivered hg lead hreads ht

/-- Header lines that begin at the end of `w`, and whatever follows them. -/
theorem header_delivered {w : List Byte} {o : List (Event Slice)} (h : Delivered 0 w o) (b : List Byte) :
    Delivered 0 (w ++ b) (o ++ (run headerStep w.length (headerStart w.length) b).1.map fun x => x.2.trim) := by
  obtain ⟨ls, tail, -, hb, ho, -⟩ := run_header_lines w.length b
  have hlines : Delivered (0 + w.length) (linesBytes ls ++ tail) (linesEvents w.length ls) := by
    rw [Nat.zero_add]
    exact (lines_delivered w.length ls).grow tail
  rw [ho, lineCalls_events, hb]
  exact h.append hlines

/-- **What an answer delivers is clean.** -/
theorem answer_delivered (hg : Delivers g) {b : List Byte} {lastPos : Nat} (hpos : lastPos ≤ b.length) :
    Delivered 0 b (answer l b lastPos).events := by
  have hevents : (answer l b lastPos).events = (read l b lastPos).1.map fun x => x.2.trim := List.map_map ..
  rw [hevents]
  by_cases h0 : lastPos = 0
  · subst h0
    have hstart := run_lead_delivered hg b
    have hout := run_outputs (Q := fun x : Nat × Event Slice => x.2.isHeader = false) leadStep_notHeader 0
      (.begin : Lead l.State) b
    have hinv := run_inv (leadStep_preserved (g := g)) (s := .begin) ⟨rfl, rfl⟩ b
    have hseq : read l b 0 = _ := (if_pos rfl).trans (run_seq 0 Lead.begin b)
    have htrim : ∀ {o : List (Nat × Event Slice)}, (∀ x ∈ o, x.2.isHeader = false) →
        (o.map fun x => x.2.trim) = o.map Prod.snd := fun ho =>
      List.map_congr_left fun x hx => trim_of_not_header (ho x hx)
    rcases hr : run (leadStep l) 0 .begin b with ⟨o, s | ⟨⟨e, m⟩ | u, rest⟩⟩
    · rw [hr] at hseq hstart hout
      rw [hseq, htrim hout]
      exact hstart
    · rw [hr] at hseq hstart hout
      rw [hseq, htrim hout]
      exact hstart
    · rw [hr] at hinv
      obtain ⟨a, c, o₁, o₂, s, rfl, -, hi, hs⟩ := hinv
      rcases leadStep_reads hi hs with ⟨s', h1, -⟩ | ⟨e, o₃, h1, -⟩ | ⟨u', lead, ph, -, hbytes, -⟩
      · cases h1
      · cases h1
      · have hsplit : a ++ c :: rest = leadBytes lead ++ g.bytes ph ++ rest := by
          rw [← hbytes]
          simp
        have hphrase : Delivered 0 (leadBytes lead ++ g.bytes ph) (g.events (leadBytes lead).length ph) := by
          refine Delivered.shift (leadBytes lead) ?_
          rw [Nat.zero_add]
          exact hg.phrase _ ph
        have hno : ∀ x ∈ (g.events (leadBytes lead).length ph).map (Prod.mk (leadBytes lead).length),
            x.2.isHeader = false := by
          intro x hx
          obtain ⟨e, he, rfl⟩ := List.mem_map.1 hx
          exact g.notHeader _ ph e he
        rw [hsplit, read_startLine, prepend_fst, List.map_append, htrim hno, map_tagged]
        exact header_delivered hphrase rest
  · have hsplit : b.take lastPos ++ b.drop lastPos = b := List.take_append_drop ..
    have hlen : (b.take lastPos).length = lastPos := List.length_take_of_le hpos
    have h := header_delivered (Delivered.nil 0 (b.take lastPos)) (b.drop lastPos)
    rw [hsplit, hlen, List.nil_append] at h
    rw [read_resume h0]
    exact h

/-- The first header of an answer has a name. -/
theorem answer_first_named (g : StartGrammar l) {b : List Byte} {lastPos : Nat} (hpos : lastPos ≤ b.length) :
    ∀ e ∈ ((answer l b lastPos).events.filter Event.isHeader).head?, ∃ name value, e = .onHeader (some name) value := by
  intro e he
  rcases headerPart_or_none g hpos with ⟨q, ls, hpart⟩ | ⟨-, -, hno⟩
  · obtain ⟨start, hcalls, hno⟩ := hpart.calls
    rw [Answer.events, hcalls, headers_of_calls fun x hx => (hno x hx).1] at he
    cases ls with
    | nil => cases he
    | cons l ls =>
      obtain rfl : l.event q = e := Option.some.inj he
      obtain ⟨⟨n, raw⟩ | ⟨raw, start⟩, eol⟩ := l
      · exact ⟨_, _, rfl⟩
      · exact absurd (hpart.opens _ rfl) (by simp [Content.isNamed])
  · rw [Answer.events, filter_isHeader_nil hno] at he
    cases he

end Calls

theorem Entry.delivers : (entry : Entry) → Delivers entry.grammar
  | .request => requestGrammar_delivers
  | .response => statusGrammar_delivers

/-- Header callbacks are heard all or none. -/
theorem hears_of_headers (h : Handler σ) {es : List (Event Slice)} (hes : ∀ e ∈ es, e.isHeader = true) :
    h.hears es = es ∨ h.hears es = [] := by
  have hmember : ∀ e ∈ es, h.has e.member = h.has .onHeader := by
    intro e he
    rw [eq_of_beq (show (e.member == .onHeader) = true from hes e he)]
  by_cases hm : h.has .onHeader = true
  · exact Or.inl (List.filter_eq_self.2 fun e he => (hmember e he).trans hm)
  · refine Or.inr (List.filter_eq_nil_iff.2 fun e he => ?_)
    rw [hmember e he]
    exact hm

/-- **Whatever is handed to the application is clean**, even from a message that is later refused. -/
theorem delivered_clean (entry : Entry) (simd : Simd) (h : Handler σ) {b : List Byte} (hb : b.length < 2 ^ 31)
    {lastPos : Nat} (hpos : lastPos ≤ b.length) (s : σ) :
    (∀ e ∈ (entry.observe simd h b lastPos s).calls, e.Tidy) ∧
      (∀ c : Byte, inRanges tokenRanges c = false → 0x20 < c ∧ c < 0x7F ∧ c ≠ COLON ∧ c ≠ CR ∧ c ≠ LF) ∧
      (∀ value, ((entry.observe simd h b lastPos s).calls.filter Event.isHeader).head? ≠ some (.onHeader none value)) ∧
      (∀ x ∈ (entry.observe simd h b lastPos s).calls.flatMap Event.pieces,
        x.1 + x.2.length ≤ b.length ∧ (b.drop x.1).take x.2.length = x.2) ∧
      ((entry.observe simd h b lastPos s).calls.flatMap Event.pieces).Pairwise
        fun x y => x.1 < y.1 ∧ x.1 + x.2.length ≤ y.1 := by
  obtain ⟨es, hes, hcalls⟩ := entry.observe_calls simd h hb hpos s
  have hsub : (h.hears es).Sublist (answer entry.line b lastPos).events := List.filter_sublist.trans hes.sublist
  have hall := (answer_delivered entry.delivers hpos).sublist hsub
  rw [hcalls]
  refine ⟨hall.tidy, tokenRanges_outside, ?_, ?_, ?_⟩
  · intro value hfirst
    obtain ⟨later, hlater⟩ : es.filter Event.isHeader <+: (answer entry.line b lastPos).events.filter Event.isHeader :=
      hes.filter _
    have hheaders : ∀ e ∈ es.filter Event.isHeader, e.isHeader = true := fun e he => (List.mem_filter.1 he).2
    rw [hears_headers] at hfirst
    rcases hears_of_headers h hheaders with hall | hnone
    · rw [hall] at hfirst
      have hmem : (Event.onHeader none value : Event Slice) ∈
          ((answer entry.line b lastPos).events.filter Event.isHeader).head? := by
        rw [← hlater, List.head?_append, hfirst]
        rfl
      obtain ⟨name, value', he⟩ := answer_first_named entry.grammar hpos _ hmem
      cases he
    · rw [hnone] at hfirst
      cases hfirst
  · intro x hx
    have hlies := hall.laid.lies x hx
    exact ⟨by have := hlies.lt; omega, hlies.take_drop⟩
  · exact hall.laid.apart.imp fun hxy => by omega

/-- A head that is refused at a line without a name, behind values with blanks at their ends. -/
def refusedHead : List Byte := ascii "HTTP/1.1 200 OK\r\na: b \r\n c\t\n: d\n"

theorem delivered_clean_refused :
    (∀ e ∈ (Entry.response.observe .unrolled Handler.recorder refusedHead 0 ()).calls, e.Tidy) ∧
      ((Entry.response.observe .unrolled Handler.recorder refusedHead 0 ()).calls.flatMap Event.pieces).Pairwise
        fun x y => x.1 < y.1 ∧ x.1 + x.2.length ≤ y.1 := by
  obtain ⟨htidy, -, -, -, hapart⟩ :=
    delivered_clean .response .unrolled Handler.recorder (b := refusedHead) (by decide) (Nat.zero_le _) ()
  exact ⟨htidy, hapart⟩

end Httparsed
