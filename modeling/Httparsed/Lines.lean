import Httparsed.Accept

/-!
# The header lines of a call

Whatever a call makes of the header section, it is whole lines: `HeaderPart` says which lines it reports, where
they begin and that it stops behind the last of them. A call gets there if it starts with a `lastPos` or if
its buffer has a whole start line (`headerPart`); any other call reports no header and stops where its start
line begins (`no_headerPart`). So every position a call can leave behind is the start of a line
(`answer_marks`).
-/

namespace Httparsed

open Transducer Grammar

/-! ## Line starts -/

/-- Where a line can start: at the very beginning, or behind an LF. -/
def LineStart (b : List Byte) (m : Nat) : Prop := m = 0 ∨ b[m - 1]? = some LF

theorem LineStart.append {b : List Byte} {m : Nat} (h : LineStart b m) (x : List Byte) : LineStart (b ++ x) m := by
  rcases h with h | h
  · exact Or.inl h
  · have hlt : m - 1 < b.length := (List.getElem?_eq_some_iff.1 h).1
    exact Or.inr (by rw [List.getElem?_append_left hlt, h])

/-- The text of a phrase of the grammar: empty, or ended by an LF. -/
def Ended (w : List Byte) : Prop := w = [] ∨ ∃ a, w = a ++ [LF]

theorem Ended.append {v w : List Byte} (hv : Ended v) (hw : Ended w) : Ended (v ++ w) := by
  rcases hw with rfl | ⟨a, rfl⟩
  · rwa [List.append_nil]
  · exact Or.inr ⟨v ++ a, (List.append_assoc ..).symm⟩

theorem Eol.ended (eol : Eol) : Ended eol.bytes := by
  cases eol with
  | crlf => exact Or.inr ⟨[CR], rfl⟩
  | lf => exact Or.inr ⟨[], rfl⟩

theorem leadBytes_ended (lead : Option Eol) : Ended (leadBytes lead) := by
  cases lead with
  | none => exact Or.inl rfl
  | some eol => exact Eol.ended eol

theorem linesBytes_ended (ls : List Line) : Ended (linesBytes ls) := by
  induction ls with
  | nil => exact Or.inl rfl
  | cons l ls ih =>
    rcases Eol.ended l.eol with h | ⟨a, h⟩
    · cases hl : l.eol <;> rw [hl] at h <;> cases h
    · have hl : Ended l.bytes := Or.inr ⟨l.content.bytes ++ a, by rw [Line.bytes, h, List.append_assoc]⟩
      exact hl.append ih

/-- A start line ends on an LF. -/
theorem StartGrammar.ended {l : StartLine} (g : StartGrammar l) (ph : g.Phrase) : Ended (g.bytes ph) := by
  have hrun := g.complete 0 ph []
  rw [List.append_nil] at hrun
  have htrivial : Preserved l.step 0 (fun _ _ _ => True) := fun _ _ _ _ _ _ _ _ => trivial
  obtain ⟨a, c, o₁, o₂, s, hb, -, -, hs⟩ := run_inv_halted htrivial trivial hrun
  obtain rfl : c = LF := l.ends _ s c ⟨⟩ (by rw [hs])
  exact Or.inr ⟨a, hb⟩

/-- Behind such a text a line can start. -/
theorem lineStart_behind {b w post : List Byte} {q : Nat} (hq : LineStart b q)
    (hb : b.drop q = w ++ post) (hw : Ended w) : LineStart b (q + w.length) := by
  rcases hw with rfl | ⟨a, rfl⟩
  · exact hq
  · right
    have hidx : q + (a ++ [LF]).length - 1 = q + a.length := by
      rw [List.length_append, List.length_singleton]
      omega
    rw [hidx, ← List.getElem?_drop, hb, List.append_assoc, List.getElem?_append_right (Nat.le_refl _), Nat.sub_self]
    rfl

/-! ## Where a start line ends -/

/-- A start line, with the empty line before it, takes up the first `q` bytes of `b`. -/
def StartLineEnd (y : StartSyntax) (b : List Byte) (q : Nat) : Prop :=
  ∃ (lead : Option Eol) (ph : y.Phrase) (rest : List Byte),
    b = leadBytes lead ++ y.bytes ph ++ rest ∧ q = (leadBytes lead ++ y.bytes ph).length

theorem StartLineEnd.le {y : StartSyntax} {b : List Byte} {q : Nat} (h : StartLineEnd y b q) : q ≤ b.length := by
  obtain ⟨lead, ph, rest, rfl, rfl⟩ := h
  exact (List.prefix_append _ rest).length_le

theorem StartLineEnd.lineStart {l : StartLine} {g : StartGrammar l} {b : List Byte} {q : Nat}
    (h : StartLineEnd g.toStartSyntax b q) : LineStart b q := by
  obtain ⟨lead, ph, rest, rfl, rfl⟩ := h
  have hw := (leadBytes_ended lead).append (g.ended ph)
  have hbehind := lineStart_behind (b := leadBytes lead ++ g.bytes ph ++ rest) (q := 0) (Or.inl rfl) rfl hw
  rwa [Nat.zero_add] at hbehind

theorem StartLineEnd.pos {l : StartLine} {g : StartGrammar l} {b : List Byte} {q : Nat}
    (h : StartLineEnd g.toStartSyntax b q) : 0 < q := by
  obtain ⟨lead, ph, rest, rfl, rfl⟩ := h
  obtain ⟨c, cs, hph, -⟩ := g.first ph
  rw [List.length_append, hph, List.length_cons]
  omega

/-- The header section of a call begins at `q`. -/
def Begins (y : StartSyntax) (b : List Byte) (lastPos q : Nat) : Prop :=
  if lastPos = 0 then StartLineEnd y b q else q = lastPos

theorem StartLineEnd.begins {y : StartSyntax} {b : List Byte} {q : Nat} (h : StartLineEnd y b q) : Begins y b 0 q := by
  rwa [Begins, if_pos rfl]

theorem Begins.le {y : StartSyntax} {b : List Byte} {lastPos q : Nat} (h : Begins y b lastPos q)
    (hpos : lastPos ≤ b.length) : q ≤ b.length := by
  unfold Begins at h
  split_ifs at h with h0
  · exact h.le
  · rwa [h]

/-! ## The header part of a call -/

/-- From `q` up to `n` stand the lines `ls`, and the empty line that closes them if the call completed. -/
def Covers (b : List Byte) (code : Int) (q n : Nat) (ls : List Line) : Prop :=
  ∃ closing post : List Byte, b.drop q = linesBytes ls ++ (closing ++ post) ∧
    n = q + (linesBytes ls ++ closing).length ∧
    ((code < 0 ∧ closing = []) ∨ (code = n ∧ ∃ eol : Eol, closing = eol.bytes))

/-- The callbacks for lines that start at offset `p`, each with the offset of its line. -/
def headerCalls (p : Nat) (ls : List Line) : List (Nat × Event Slice) := (lineCalls p ls).map fun x => (x.1, x.2.trim)

theorem headerCalls_append (p : Nat) (a b : List Line) :
    headerCalls p (a ++ b) = headerCalls p a ++ headerCalls (p + (linesBytes a).length) b := by
  rw [headerCalls, lineCalls_append, List.map_append]
  rfl

theorem headerCalls_events (p : Nat) (ls : List Line) : (headerCalls p ls).map Prod.snd = linesEvents p ls := by
  rw [← lineCalls_events, headerCalls, List.map_map]
  rfl

/-- A header callback belongs to one line, and is tagged with the start of that line. -/
theorem mem_headerCalls {p : Nat} {ls : List Line} {x : Nat × Event Slice} {pre post : List (Nat × Event Slice)}
    (h : headerCalls p ls = pre ++ x :: post) :
    ∃ ls₁ l ls₂, ls = ls₁ ++ l :: ls₂ ∧ pre = headerCalls p ls₁ ∧
      x = (p + (linesBytes ls₁).length, l.event (p + (linesBytes ls₁).length)) := by
  obtain ⟨pre', tail, hsplit, rfl, htail⟩ := List.map_eq_append_iff.1 h
  obtain ⟨x', post', rfl, rfl, rfl⟩ := List.map_eq_cons_iff.1 htail
  obtain ⟨ls₁, l, ls₂, rfl, rfl, rfl⟩ := lineCalls_split hsplit
  exact ⟨ls₁, l, ls₂, rfl, rfl, rfl⟩

/-- **What a call makes of the header section**: the lines `ls` from `q` on, reported in order, each once. -/
structure HeaderPart (y : StartSyntax) (b : List Byte) (lastPos : Nat) (a : Answer) (q : Nat)
    (ls : List Line) : Prop where
  begins : if lastPos = 0 then StartLineEnd y b q else q = lastPos
  inside : q ≤ b.length
  opens : Opens ls
  covers : Covers b a.code q a.lastPos ls
  calls : ∃ start, a.calls = start ++ headerCalls q ls ∧
    ∀ x ∈ start, x.2.isHeader = false ∧ x.1 ≤ q ∧ lastPos = 0 ∧ LineStart b x.1

section

variable {l : StartLine} {g : StartGrammar l}

/-- The end of a run of the header section, as the end of a call. -/
theorem covers_of_headerEnd {b tail : List Byte} {q : Nat} {ls : List Line}
    {out : Outcome HeaderState Byte (Except (ParserError × Nat) Nat)} (hb : b.drop q = linesBytes ls ++ tail)
    (hend : HeaderEnd q ls tail out) : Covers b (outcomeCode out) q (stopMark HeaderState.mark out) ls := by
  rcases out with s | ⟨⟨e, m⟩ | n, rest⟩
  · exact ⟨[], tail, hb, by rw [List.append_nil]; exact hend.1, Or.inl ⟨err_neg _, rfl⟩⟩
  · exact ⟨[], tail, hb, by rw [List.append_nil]; exact hend, Or.inl ⟨err_neg e, rfl⟩⟩
  · obtain ⟨eol, rfl, rfl⟩ := hend
    exact ⟨eol.bytes, rest, hb, rfl, Or.inr ⟨rfl, eol, rfl⟩⟩

@[simp] theorem outcomeCode_inSnd
    (r : List (Nat × Event Slice) × Outcome HeaderState Byte (Except (ParserError × Nat) Nat)) :
    outcomeCode (inSnd r : _ × HeadOutcome l).2 = outcomeCode r.2 := by
  obtain ⟨o, out⟩ := r
  rcases out with s | ⟨⟨e, m⟩ | n, rest⟩ <;> rfl

/-- A call that gets to the header section makes the callbacks of its start line, if it has read one, and reads
on from there. -/
theorem read_section {b : List Byte} {lastPos q : Nat} (h : Begins g.toStartSyntax b lastPos q) :
    ∃ (o : List (Event Slice)) (m : Nat), (∀ e ∈ o, e.isHeader = false) ∧
      (o = [] ∨ lastPos = 0 ∧ m ≤ q ∧ LineStart b m) ∧
      read l b lastPos = prepend (o.map (Prod.mk m)) (inSnd (run headerStep q (headerStart q) (b.drop q))) := by
  unfold Begins at h
  split_ifs at h with h0
  · subst h0
    obtain ⟨lead, ph, rest, rfl, rfl⟩ := h
    have hlead := lineStart_behind (b := leadBytes lead ++ g.bytes ph ++ rest) (q := 0) (Or.inl rfl)
      (List.append_assoc _ _ _) (leadBytes_ended lead)
    rw [Nat.zero_add] at hlead
    refine ⟨g.events (leadBytes lead).length ph, (leadBytes lead).length, g.notHeader _ ph,
      Or.inr ⟨rfl, (List.prefix_append _ _).length_le, hlead⟩, ?_⟩
    rw [List.drop_left' rfl]
    exact read_startLine (g := g) lead ph rest
  · subst h
    refine ⟨[], 0, fun e he => absurd he List.not_mem_nil, Or.inl rfl, ?_⟩
    rw [read_resume h0]
    exact (prepend_nil _).symm

/-- What such a call makes of the section. -/
theorem headerPart_begins {b : List Byte} {lastPos q : Nat} (h : Begins g.toStartSyntax b lastPos q)
    (hpos : lastPos ≤ b.length) : ∃ ls, HeaderPart g.toStartSyntax b lastPos (answer l b lastPos) q ls := by
  obtain ⟨o, m, hno, hm, hread⟩ := read_section h
  obtain ⟨ls, tail, hopens, hdrop, ho, hend⟩ := run_header_lines q (b.drop q)
  refine ⟨ls, h, h.le hpos, hopens, ?_, (o.map (Prod.mk m)).map (fun x => (x.1, x.2.trim)), ?_, ?_⟩
  · have hcovers := covers_of_headerEnd hdrop hend
    unfold answer
    rw [hread, prepend_snd, outcomeCode_inSnd, stopMark_inSnd]
    exact hcovers
  · unfold answer
    rw [hread, prepend_fst, List.map_append]
    show _ ++ (run headerStep q (headerStart q) (b.drop q)).1.map _ = _
    rw [ho]
    rfl
  · intro x hx
    obtain ⟨y, hy, rfl⟩ := List.mem_map.1 hx
    obtain ⟨e, he, rfl⟩ := List.mem_map.1 hy
    have hnot := hno e he
    rcases hm with rfl | hm
    · cases he
    · exact ⟨by rw [trim_of_not_header hnot]; exact hnot, hm.2.1, hm.1, hm.2.2⟩

/-- **A call with a `lastPos`, or with a whole start line, gets to the header section.** -/
theorem headerPart (g : StartGrammar l) {b : List Byte} {lastPos : Nat} (hpos : lastPos ≤ b.length)
    (h : lastPos ≠ 0 ∨ ∃ q, StartLineEnd g.toStartSyntax b q) :
    ∃ q ls, HeaderPart g.toStartSyntax b lastPos (answer l b lastPos) q ls := by
  by_cases h0 : lastPos = 0
  · subst h0
    obtain ⟨q, hq⟩ := h.resolve_left (fun h => h rfl)
    exact ⟨q, headerPart_begins hq.begins hpos⟩
  · exact ⟨lastPos, headerPart_begins (by rw [Begins, if_neg h0]) hpos⟩

/-! ## Calls that do not get there -/

theorem Lead.Reads.lineStart {w : List Byte} {o : List (Nat × Event Slice)} {s : Lead l.State} (h : Lead.Reads g w o s)
    (post : List Byte) : LineStart (w ++ post) s.mark := by
  cases s with
  | begin => exact Or.inl rfl
  | beginCR => exact Or.inl rfl
  | line m t =>
    obtain ⟨lead, w', o', rfl, rfl, -⟩ := h
    have hlead := lineStart_behind (b := leadBytes lead ++ w' ++ post) (q := 0) (Or.inl rfl) (List.append_assoc _ _ _)
      (leadBytes_ended lead)
    rwa [Nat.zero_add] at hlead

/-- **A call whose buffer has no whole start line** reports no header, and stops where its start line begins. -/
theorem no_headerPart {b : List Byte} (h : ¬ ∃ q, StartLineEnd g.toStartSyntax b q) :
    (answer l b 0).code < 0 ∧ (answer l b 0).lastPos ≤ b.length ∧ LineStart b (answer l b 0).lastPos ∧
      ∀ x ∈ (answer l b 0).calls, x.2.isHeader = false ∧ x.1 = (answer l b 0).lastPos := by
  have hcalls : ∀ (o : List (Event Slice)) (m : Nat), (∀ e ∈ o, e.isHeader = false) →
      ∀ x ∈ (o.map (Prod.mk m)).map (fun x => (x.1, x.2.trim)), x.2.isHeader = false ∧ x.1 = m := by
    intro o m ho x hx
    obtain ⟨y, hy, rfl⟩ := List.mem_map.1 hx
    obtain ⟨e, he, rfl⟩ := List.mem_map.1 hy
    exact ⟨by rw [trim_of_not_header (ho e he)]; exact ho e he, rfl⟩
  unfold answer
  rcases read_cases g b with ⟨o, s, hr, hs, ho⟩ | ⟨o, a, c, rest, s, e, hr, rfl, ⟨o', hs⟩, ho⟩ | ⟨lead, ph, rest, hb, -⟩
  · rw [hr]
    refine ⟨err_neg _, Lead.Reads.mark_le hs, ?_, hcalls o _ ho⟩
    have hstart := Lead.Reads.lineStart hs []
    rwa [List.append_nil] at hstart
  · rw [hr]
    refine ⟨err_neg e, ?_, Lead.Reads.lineStart hs _, hcalls o _ ho⟩
    exact (Lead.Reads.mark_le hs).trans (List.prefix_append _ _).length_le
  · exact absurd ⟨_, lead, ph, rest, hb, rfl⟩ h

/-- A call gets to the header section, or it reports no header. -/
theorem headerPart_or_none (g : StartGrammar l) {b : List Byte} {lastPos : Nat} (hpos : lastPos ≤ b.length) :
    (∃ q ls, HeaderPart g.toStartSyntax b lastPos (answer l b lastPos) q ls) ∨
      lastPos = 0 ∧ (¬∃ q, StartLineEnd g.toStartSyntax b q) ∧
        ∀ x ∈ (answer l b lastPos).calls, x.2.isHeader = false := by
  by_cases h : lastPos ≠ 0 ∨ ∃ q, StartLineEnd g.toStartSyntax b q
  · exact Or.inl (headerPart g hpos h)
  · obtain ⟨h0, hq⟩ := not_or.1 h
    obtain rfl : lastPos = 0 := not_not.1 h0
    exact Or.inr ⟨rfl, hq, fun x hx => ((no_headerPart hq).2.2.2 x hx).1⟩

/-! ## Positions -/

/-- `m` is a line start of `b` behind `lastPos`. -/
def Behind (b : List Byte) (lastPos m : Nat) : Prop := lastPos ≤ m ∧ m ≤ b.length ∧ LineStart b m

theorem Covers.behind {b : List Byte} {code : Int} {q n : Nat} {ls : List Line} (h : Covers b code q n ls)
    (hq : LineStart b q) (hle : q ≤ b.length) : Behind b q n := by
  obtain ⟨closing, post, hb, rfl, hend⟩ := h
  have hclosing : Ended closing := by
    rcases hend with ⟨-, rfl⟩ | ⟨-, eol, rfl⟩
    · exact Or.inl rfl
    · exact Eol.ended eol
  refine ⟨Nat.le_add_right _ _, ?_, ?_⟩
  · have hlen := congrArg List.length hb
    simp only [List.length_drop, List.length_append] at hlen ⊢
    omega
  · exact lineStart_behind hq (by rw [hb, List.append_assoc]) ((linesBytes_ended ls).append hclosing)

theorem HeaderPart.lineStart {b : List Byte} {lastPos q : Nat} {a : Answer} {ls : List Line}
    (h : HeaderPart g.toStartSyntax b lastPos a q ls) (hpos : LineStart b lastPos) : LineStart b q ∧ lastPos ≤ q := by
  have hbegins := h.begins
  split_ifs at hbegins with h0
  · subst h0
    exact ⟨hbegins.lineStart, Nat.zero_le q⟩
  · subst hbegins
    exact ⟨hpos, Nat.le_refl q⟩

/-- **Every position a call can leave behind is the start of a line**, and not in front of the one it was given. -/
theorem answer_marks (g : StartGrammar l) {b : List Byte} {lastPos : Nat} (hpos : lastPos ≤ b.length)
    (hstart : LineStart b lastPos) :
    Behind b lastPos (answer l b lastPos).lastPos ∧ ∀ x ∈ (answer l b lastPos).calls, Behind b lastPos x.1 := by
  by_cases h : lastPos ≠ 0 ∨ ∃ q, StartLineEnd g.toStartSyntax b q
  · obtain ⟨q, ls, hpart⟩ := headerPart g hpos h
    obtain ⟨hq, hle⟩ := hpart.lineStart hstart
    have hbehind := hpart.covers.behind hq hpart.inside
    refine ⟨⟨hle.trans hbehind.1, hbehind.2⟩, ?_⟩
    obtain ⟨start, hcalls, hno⟩ := hpart.calls
    intro x hx
    rw [hcalls] at hx
    rcases List.mem_append.1 hx with hx | hx
    · obtain ⟨-, hxq, h0, hx'⟩ := hno x hx
      exact ⟨by omega, hxq.trans hpart.inside, hx'⟩
    · obtain ⟨pre, post, hsplit⟩ := List.append_of_mem hx
      obtain ⟨ls₁, line, ls₂, rfl, -, rfl⟩ := mem_headerCalls hsplit
      obtain ⟨closing, post', hb, -, -⟩ := hpart.covers
      rw [linesBytes_append, List.append_assoc] at hb
      refine ⟨by simp only; omega, ?_, lineStart_behind hq hb (linesBytes_ended ls₁)⟩
      have hlen := congrArg List.length hb
      have hin := hpart.inside
      simp only [List.length_drop, List.length_append] at hlen ⊢
      omega
  · have h0 : lastPos = 0 := by
      by_contra hne
      exact h (Or.inl hne)
    subst h0
    obtain ⟨-, hle, hls, hcalls⟩ := no_headerPart (g := g) fun hs => h (Or.inr hs)
    refine ⟨⟨Nat.zero_le _, hle, hls⟩, ?_⟩
    intro x hx
    rw [(hcalls x hx).2]
    exact ⟨Nat.zero_le _, hle, hls⟩

end

end Httparsed
