import Httparsed.Parser
import Httparsed.Lib.Transducer
import Httparsed.Lib.Veto
import Mathlib.Data.List.DropRight

/-!
# The head of a message, read one byte at a time

What `parse` computes, without indices: a reader that takes a byte, may deliver a callback, and goes on or
stops. The states are the places at which the parser can run out of bytes. Three readers make up a head:
the tolerated empty line and the start line of the entry point (`leadStep`), then the header lines
(`headerStep`). A header callback is delivered once its line end has been read, any other one with the
byte that ends its token.

`mark` is the `lastPos` the parser leaves behind when it stops in that state.
-/

namespace Httparsed

open Transducer

/-! ## Request line -/

/-- Where the reader stands in `METHOD SP+ URI SP+ VERSION EOL`. -/
inductive RequestState where
  | method (acc : Slice)
  | methodSpaces
  | uri (acc : Slice)
  | uriSpaces
  | version (acc : Slice)
  | versionCR
  deriving DecidableEq, Repr

/-- Callbacks of a step of a start line, and what it leads to. -/
abbrev LineOut (σ : Type) := List (Event Slice) × Next σ (Except ParserError PUnit)

def stepMethod (acc : Slice) (c : Byte) : LineOut RequestState :=
  if tokenByte c then ([], .more (.method (acc.push c)))
  else if c = SP then
    if acc.bytes = [] then ([], .halt (.error .noMethod)) else ([.onMethod acc], .more .methodSpaces)
  else ([], .halt (.error .token))

def stepUri (acc : Slice) (c : Byte) : LineOut RequestState :=
  if uriByte c then ([], .more (.uri (acc.push c)))
  else if c = SP then ([.onUri acc], .more .uriSpaces)
  else ([], .halt (.error .token))

def stepVersion (acc : Slice) (c : Byte) : LineOut RequestState :=
  if versionByte c then ([], .more (.version (acc.push c)))
  else if c = CR then ([.onVersion acc], .more .versionCR)
  else if c = LF then ([.onVersion acc], .halt (.ok ⟨⟩))
  else ([], .halt (.error .token))

def requestStep : Step RequestState Byte (Event Slice) (Except ParserError PUnit)
  | _, .method acc, c => stepMethod acc c
  | p, .methodSpaces, c =>
    if c = CR ∨ c = LF then ([], .halt (.error .noUri))
    else if c = SP then ([], .more .methodSpaces)
    else stepUri ⟨p, []⟩ c
  | _, .uri acc, c => stepUri acc c
  | p, .uriSpaces, c =>
    if c = CR ∨ c = LF then ([], .halt (.error .noVersion))
    else if c = SP then ([], .more .uriSpaces)
    else stepVersion ⟨p, []⟩ c
  | _, .version acc, c => stepVersion acc c
  | _, .versionCR, c => if c = LF then ([], .halt (.ok ⟨⟩)) else ([], .halt (.error .newLine))

/-! ## Status line -/

/-- Where the reader stands in `VERSION SP+ DIGIT DIGIT DIGIT TEXT EOL`. The status code is only looked at
together with the byte after it, so up to three bytes of any kind are held in `code`. -/
inductive StatusState where
  | version (acc : Slice)
  | versionSpaces
  | code (acc : Slice)
  | text (acc : Slice)
  | textCR
  deriving DecidableEq, Repr

def isDigit (c : Byte) : Bool := decide (0x30 ≤ c) && decide (c ≤ 0x39)

/-- The value of a digit, as an `int`. -/
def digit (c : Byte) : Int := (c.toNat : Int) - 0x30

/-- Three ASCII digits as a number. -/
def codeValue : List Byte → Option Int
  | [a, b, c] => if isDigit a && isDigit b && isDigit c then some (100 * digit a + 10 * digit b + digit c) else none
  | _ => none

/-- A slice without the bytes of a class it starts with. -/
def Slice.stripLeading (P : Byte → Bool) (s : Slice) : Slice :=
  ⟨s.ptr + (s.bytes.takeWhile P).length, s.bytes.dropWhile P⟩

theorem Slice.stripLeading_all {P : Byte → Bool} {s : Slice} (h : ∀ c ∈ s.bytes, P c = true) :
    s.stripLeading P = ⟨s.ptr + s.bytes.length, []⟩ := by
  have ht : s.bytes.takeWhile P = s.bytes := List.takeWhile_eq_self_iff.2 h
  have hd : s.bytes.dropWhile P = [] := List.dropWhile_eq_nil_iff.2 h
  rw [Slice.stripLeading, ht, hd]

/-- A further byte is kept when something is left, or when it is not of the class. -/
theorem Slice.stripLeading_push {P : Byte → Bool} {s : Slice} {c : Byte}
    (h : (s.stripLeading P).bytes ≠ [] ∨ P c = false) :
    (s.push c).stripLeading P = (s.stripLeading P).push c := by
  unfold Slice.stripLeading at h ⊢
  obtain ⟨ptr, bs⟩ := s
  simp only [Slice.push, Slice.mk.injEq, Nat.add_left_cancel_iff] at h ⊢
  induction bs with
  | nil =>
    have hc : P c = false := by simpa using h
    constructor
    · simp [hc]
    · simp [hc]
  | cons b bs ih =>
    cases hb : P b with
    | true =>
      simp only [List.cons_append, List.dropWhile_cons, List.takeWhile_cons, hb, ↓reduceIte, List.length_cons] at h ⊢
      obtain ⟨h1, h2⟩ := ih h
      exact ⟨by rw [h1], h2⟩
    | false => simp [hb]

/-- SP or HT -/
def blank (c : Byte) : Bool := c == SP || c == HT

/-- A slice without the SPs and HTs it ends with. -/
def Slice.stripTrailing (s : Slice) : Slice := ⟨s.ptr, s.bytes.rdropWhile blank⟩

/-- A callback as the application gets it: the value of a header is stripped at its end. -/
def Event.trim : Event Slice → Event Slice
  | .onHeader name value => .onHeader name value.stripTrailing
  | e => e

/-- The reason phrase is only reported when something is left of it. -/
def statusMsgEvents (acc : Slice) : List (Event Slice) :=
  if (acc.stripLeading (· == SP)).bytes = [] then [] else [.onStatusMsg (acc.stripLeading (· == SP))]

def stepStatusVersion (acc : Slice) (c : Byte) : LineOut StatusState :=
  if versionByte c then ([], .more (.version (acc.push c)))
  else if c = SP then
    if acc.bytes = [] then ([], .halt (.error .noVersion)) else ([.onVersion acc], .more .versionSpaces)
  else ([], .halt (.error .token))

def stepText (acc : Slice) (c : Byte) : LineOut StatusState :=
  if textByte c then ([], .more (.text (acc.push c)))
  else if c = CR then (statusMsgEvents acc, .more .textCR)
  else if c = LF then (statusMsgEvents acc, .halt (.ok ⟨⟩))
  else ([], .halt (.error .token))

def stepCode (p : Nat) (acc : Slice) (c : Byte) : LineOut StatusState :=
  if acc.bytes.length < 3 then ([], .more (.code (acc.push c)))
  else
    match codeValue acc.bytes with
    | none => ([], .halt (.error .status))
    | some code =>
      if c ≠ SP ∧ c ≠ CR ∧ c ≠ LF then ([.onStatus code], .halt (.error .status))
      else (.onStatus code :: (stepText ⟨p, []⟩ c).1, (stepText ⟨p, []⟩ c).2)

def statusStep : Step StatusState Byte (Event Slice) (Except ParserError PUnit)
  | _, .version acc, c => stepStatusVersion acc c
  | p, .versionSpaces, c =>
    if c = CR ∨ c = LF then ([], .halt (.error .noStatus))
    else if c = SP then ([], .more .versionSpaces)
    else stepCode p ⟨p, []⟩ c
  | p, .code acc, c => stepCode p acc c
  | _, .text acc, c => stepText acc c
  | _, .textCR, c => if c = LF then ([], .halt (.ok ⟨⟩)) else ([], .halt (.error .newLine))

/-! ## Entry points -/

/-- What an entry point adds to the common part: its start line, which delivers no header, ends on an LF and
never stops with `partial`. -/
structure StartLine where
  State : Type
  start : Nat → State
  step : Step State Byte (Event Slice) (Except ParserError PUnit)
  notHeader : ∀ p s c e, e ∈ (step p s c).1 → e.isHeader = false
  ends : ∀ p s c u, (step p s c).2 = .halt (.ok u) → c = LF
  decided : ∀ p s c e, (step p s c).2 = .halt (.error e) → e ≠ .partialData

theorem requestStep_notHeader (p : Nat) (s : RequestState) (c : Byte) (e : Event Slice)
    (h : e ∈ (requestStep p s c).1) : e.isHeader = false := by
  cases s <;> simp only [requestStep, stepMethod, stepUri, stepVersion] at h <;> (repeat' split at h) <;>
    simp_all [Event.isHeader, Event.member]

theorem requestStep_ends (p : Nat) (s : RequestState) (c : Byte) (u : PUnit)
    (h : (requestStep p s c).2 = .halt (.ok u)) : c = LF := by
  cases s <;> simp only [requestStep, stepMethod, stepUri, stepVersion] at h <;> (repeat' split at h) <;>
    simp_all

theorem requestStep_decided (p : Nat) (s : RequestState) (c : Byte) (e : ParserError)
    (h : (requestStep p s c).2 = .halt (.error e)) : e ≠ .partialData := by
  cases s <;> simp only [requestStep, stepMethod, stepUri, stepVersion] at h <;> (repeat' split at h) <;>
    simp_all
  all_goals
    rw [← h]
    decide

theorem stepText_notHeader (acc : Slice) (c : Byte) (e : Event Slice) (h : e ∈ (stepText acc c).1) :
    e.isHeader = false := by
  simp only [stepText, statusMsgEvents] at h
  repeat' split at h
  all_goals simp_all [Event.isHeader, Event.member]

theorem stepText_ends (acc : Slice) (c : Byte) (u : PUnit) (h : (stepText acc c).2 = .halt (.ok u)) : c = LF := by
  simp only [stepText] at h
  repeat' split at h
  all_goals simp_all

theorem stepCode_notHeader (p : Nat) (acc : Slice) (c : Byte) (e : Event Slice) (h : e ∈ (stepCode p acc c).1) :
    e.isHeader = false := by
  simp only [stepCode] at h
  repeat' split at h
  · cases h
  · cases h
  · rw [List.mem_singleton.1 h]; rfl
  · rcases List.mem_cons.1 h with rfl | h
    · rfl
    · exact stepText_notHeader _ _ _ h

theorem stepCode_ends (p : Nat) (acc : Slice) (c : Byte) (u : PUnit) (h : (stepCode p acc c).2 = .halt (.ok u)) :
    c = LF := by
  simp only [stepCode] at h
  repeat' split at h
  · cases h
  · cases h
  · cases h
  · exact stepText_ends _ _ _ h

theorem stepText_decided (acc : Slice) (c : Byte) (e : ParserError) (h : (stepText acc c).2 = .halt (.error e)) :
    e ≠ .partialData := by
  simp only [stepText] at h
  repeat' split at h
  all_goals cases h
  decide

theorem stepCode_decided (p : Nat) (acc : Slice) (c : Byte) (e : ParserError)
    (h : (stepCode p acc c).2 = .halt (.error e)) : e ≠ .partialData := by
  simp only [stepCode] at h
  repeat' split at h
  · cases h
  · cases h; decide
  · cases h; decide
  · exact stepText_decided _ _ _ h

theorem statusStep_notHeader (p : Nat) (s : StatusState) (c : Byte) (e : Event Slice)
    (h : e ∈ (statusStep p s c).1) : e.isHeader = false := by
  cases s with
  | version acc =>
    simp only [statusStep, stepStatusVersion] at h
    repeat' split at h
    all_goals simp_all [Event.isHeader, Event.member]
  | versionSpaces =>
    simp only [statusStep] at h
    repeat' split at h
    · cases h
    · cases h
    · exact stepCode_notHeader _ _ _ _ h
  | code acc => exact stepCode_notHeader _ _ _ _ h
  | text acc => exact stepText_notHeader _ _ _ h
  | textCR =>
    simp only [statusStep] at h
    split at h <;> cases h

theorem statusStep_ends (p : Nat) (s : StatusState) (c : Byte) (u : PUnit)
    (h : (statusStep p s c).2 = .halt (.ok u)) : c = LF := by
  cases s with
  | version acc =>
    simp only [statusStep, stepStatusVersion] at h
    repeat' split at h
    all_goals simp_all
  | versionSpaces =>
    simp only [statusStep] at h
    repeat' split at h
    · cases h
    · cases h
    · exact stepCode_ends _ _ _ _ h
  | code acc => exact stepCode_ends _ _ _ _ h
  | text acc => exact stepText_ends _ _ _ h
  | textCR =>
    simp only [statusStep] at h
    split at h
    · assumption
    · cases h

theorem statusStep_decided (p : Nat) (s : StatusState) (c : Byte) (e : ParserError)
    (h : (statusStep p s c).2 = .halt (.error e)) : e ≠ .partialData := by
  cases s with
  | version acc =>
    simp only [statusStep, stepStatusVersion] at h
    repeat' split at h
    all_goals cases h
    all_goals decide
  | versionSpaces =>
    simp only [statusStep] at h
    repeat' split at h
    · cases h; decide
    · cases h
    · exact stepCode_decided _ _ _ _ h
  | code acc => exact stepCode_decided _ _ _ _ h
  | text acc => exact stepText_decided _ _ _ h
  | textCR =>
    simp only [statusStep] at h
    split at h <;> cases h
    decide

def requestLine : StartLine :=
  ⟨RequestState, fun p => .method ⟨p, []⟩, requestStep, requestStep_notHeader, requestStep_ends,
    requestStep_decided⟩

def statusLine : StartLine :=
  ⟨StatusState, fun p => .version ⟨p, []⟩, statusStep, statusStep_notHeader, statusStep_ends,
    statusStep_decided⟩

/-- `parseRequest` and `parseResponse`. -/
inductive Entry where
  | request
  | response
  deriving DecidableEq, Repr

def Entry.line : Entry → StartLine
  | .request => requestLine
  | .response => statusLine

/-! ## The empty line in front -/

/-- Nothing read yet, a CR read, or in the start line with `mark` bytes of empty line before it. -/
inductive Lead (σ : Type) where
  | begin
  | beginCR
  | line (mark : Nat) (s : σ)
  deriving DecidableEq, Repr

/-- Callbacks of a step with the mark they are delivered at, and what it leads to. -/
abbrev HeadOut (σ : Type) (ν : Type) := List (Nat × Event Slice) × Next σ (Except (ParserError × Nat) ν)

/-- A step of the start line while the mark is `m`. -/
def tagged {σ : Type} (m : Nat) : LineOut σ → HeadOut (Lead σ) PUnit
  | (o, .more s) => (o.map (Prod.mk m), .more (.line m s))
  | (o, .halt (.ok u)) => (o.map (Prod.mk m), .halt (.ok u))
  | (o, .halt (.error e)) => (o.map (Prod.mk m), .halt (.error (e, m)))

def leadStep (l : StartLine) : Step (Lead l.State) Byte (Nat × Event Slice) (Except (ParserError × Nat) PUnit)
  | p, .begin, c =>
    if c = CR then ([], .more .beginCR)
    else if c = LF then ([], .more (.line (p + 1) (l.start (p + 1))))
    else tagged 0 (l.step p (l.start p) c)
  | p, .beginCR, c =>
    if c = LF then ([], .more (.line (p + 1) (l.start (p + 1)))) else ([], .halt (.error (.newLine, 0)))
  | p, .line m s, c => tagged m (l.step p s c)

def Lead.mark {σ : Type} : Lead σ → Nat
  | .begin => 0
  | .beginCR => 0
  | .line m _ => m

/-! ## Header lines -/

/-- Where the reader stands in a header line, or in the empty line that closes the head. -/
inductive HeaderPhase where
  | lineStart (hasHeader : Bool)
  | closingCR
  | name (acc : Slice)
  | blanks (name : Slice)
  | value (name : Option Slice) (acc : Slice)
  | valueCR (name : Option Slice) (value : Slice)
  deriving DecidableEq, Repr

/-- What a line was: the closing empty one, or a header with its value still untrimmed. -/
inductive LineEnd where
  | closing
  | header (name : Option Slice) (value : Slice)
  deriving DecidableEq, Repr

abbrev HeaderOut := List (Event Slice) × Next HeaderPhase (Except ParserError LineEnd)

def stepName (acc : Slice) (c : Byte) : HeaderOut :=
  if tokenByte c then ([], .more (.name (acc.push c)))
  else if c = COLON then
    if acc.bytes = [] then ([], .halt (.error .noHeaderName)) else ([], .more (.blanks acc))
  else ([], .halt (.error .token))

def stepValue (name : Option Slice) (acc : Slice) (c : Byte) : HeaderOut :=
  if textByte c then ([], .more (.value name (acc.push c)))
  else if c = CR then ([], .more (.valueCR name acc))
  else if c = LF then ([], .halt (.ok (.header name acc)))
  else ([], .halt (.error .token))

/-- One line, up to its LF. -/
def lineStep : Step HeaderPhase Byte (Event Slice) (Except ParserError LineEnd)
  | p, .lineStart hasHeader, c =>
    if c = CR then ([], .more .closingCR)
    else if c = LF then ([], .halt (.ok .closing))
    else if hasHeader = true ∧ (c = SP ∨ c = HT) then stepValue none ⟨p, []⟩ c
    else stepName ⟨p, []⟩ c
  | _, .closingCR, c => if c = LF then ([], .halt (.ok .closing)) else ([], .halt (.error .newLine))
  | _, .name acc, c => stepName acc c
  | p, .blanks name, c =>
    if c = SP ∨ c = HT then ([], .more (.blanks name)) else stepValue (some name) ⟨p, []⟩ c
  | _, .value name acc, c => stepValue name acc c
  | _, .valueCR name value, c =>
    if c = LF then ([], .halt (.ok (.header name value))) else ([], .halt (.error .newLine))

/-- `mark` is where the current line starts. -/
structure HeaderState where
  mark : Nat
  phase : HeaderPhase
  deriving DecidableEq, Repr

/-- Line after line, until the closing one. -/
def headerStep : Step HeaderState Byte (Nat × Event Slice) (Except (ParserError × Nat) Nat)
  | p, ⟨m, phase⟩, c =>
    match (lineStep p phase c).2 with
    | .more phase' => ([], .more ⟨m, phase'⟩)
    | .halt (.error e) => ([], .halt (.error (e, m)))
    | .halt (.ok .closing) => ([], .halt (.ok (p + 1)))
    | .halt (.ok (.header name value)) => ([(m, .onHeader name value)], .more ⟨p + 1, .lineStart true⟩)

/-! ## A whole head -/

abbrev HeadState (l : StartLine) := Lead l.State ⊕ HeaderState

abbrev HeadOutcome (l : StartLine) := Outcome (HeadState l) Byte (Except (ParserError × Nat) Nat)

/-- Where header lines begin. -/
def headerStart (p : Nat) : HeaderState := ⟨p, .lineStart false⟩

def headStep (l : StartLine) : Step (HeadState l) Byte (Nat × Event Slice) (Except (ParserError × Nat) Nat) :=
  seq (leadStep l) headerStep headerStart

/-- Read `b` as `parse` does: from the very beginning, or from `lastPos` on as header lines. -/
def read (l : StartLine) (b : List Byte) (lastPos : Nat) : List (Nat × Event Slice) × HeadOutcome l :=
  if lastPos = 0 then run (headStep l) 0 (.inl .begin) b
  else run (headStep l) lastPos (.inr (headerStart lastPos)) (b.drop lastPos)

/-- The mark of a state. -/
def HeadState.mark {l : StartLine} : HeadState l → Nat
  | .inl s => s.mark
  | .inr s => s.mark

/-! ## What a step can do -/

section

variable {τ : Type} {l : StartLine} {p m k : Nat} {c : Byte} {o : List (Nat × Event Slice)} {e : ParserError}

/-- A tagged step is a step of the start line, its callbacks and its error marked. -/
theorem tagged_more {r : LineOut τ} {s : Lead τ} (h : tagged m r = (o, .more s)) :
    ∃ o₁ x, r = (o₁, .more x) ∧ o = o₁.map (Prod.mk m) ∧ s = .line m x := by
  rcases r with ⟨o₁, x | e | u⟩ <;> cases h
  exact ⟨o₁, x, rfl, rfl, rfl⟩

theorem tagged_error {r : LineOut τ} (h : tagged m r = (o, .halt (.error (e, k)))) :
    ∃ o₁, r = (o₁, .halt (.error e)) ∧ o = o₁.map (Prod.mk m) ∧ k = m := by
  rcases r with ⟨o₁, x | e | u⟩ <;> cases h
  exact ⟨o₁, rfl, rfl, rfl⟩

theorem tagged_ok {r : LineOut τ} {u : PUnit} (h : tagged m r = (o, .halt (.ok u))) :
    ∃ o₁, r = (o₁, .halt (.ok u)) ∧ o = o₁.map (Prod.mk m) := by
  rcases r with ⟨o₁, x | e | u⟩ <;> cases h
  exact ⟨o₁, rfl, rfl⟩

/-- **A step before the header section** is one of the empty line in front, or one of the start line. -/
theorem leadStep_cases {s : Lead l.State} {n : Next (Lead l.State) (Except (ParserError × Nat) PUnit)}
    (h : leadStep l p s c = (o, n)) :
    (s = .begin ∧ c = CR ∧ o = [] ∧ n = .more .beginCR) ∨
      ((s = .begin ∨ s = .beginCR) ∧ c = LF ∧ o = [] ∧ n = .more (.line (p + 1) (l.start (p + 1)))) ∨
      (s = .beginCR ∧ c ≠ LF ∧ o = [] ∧ n = .halt (.error (.newLine, 0))) ∨
      ∃ m x, ((s = .begin ∧ m = 0 ∧ x = l.start p ∧ c ≠ CR ∧ c ≠ LF) ∨ s = .line m x) ∧
        tagged m (l.step p x c) = (o, n) := by
  cases s with
  | begin =>
    simp only [leadStep] at h
    split_ifs at h with h1 h2
    · cases h
      exact Or.inl ⟨rfl, h1, rfl, rfl⟩
    · cases h
      exact Or.inr (Or.inl ⟨Or.inl rfl, h2, rfl, rfl⟩)
    · exact Or.inr (Or.inr (Or.inr ⟨0, _, Or.inl ⟨rfl, rfl, rfl, h1, h2⟩, h⟩))
  | beginCR =>
    simp only [leadStep] at h
    split_ifs at h with h1
    · cases h
      exact Or.inr (Or.inl ⟨Or.inr rfl, h1, rfl, rfl⟩)
    · cases h
      exact Or.inr (Or.inr (Or.inl ⟨rfl, h1, rfl, rfl⟩))
  | line m x => exact Or.inr (Or.inr (Or.inr ⟨m, x, Or.inr rfl, h⟩))

/-- A step inside a header line, or the one that ends it. -/
theorem headerStep_more {s s' : HeaderState} (h : headerStep p s c = (o, .more s')) :
    (∃ o₁ phase', lineStep p s.phase c = (o₁, .more phase') ∧ o = [] ∧ s' = ⟨s.mark, phase'⟩) ∨
      ∃ o₁ name value, lineStep p s.phase c = (o₁, .halt (.ok (.header name value))) ∧
        o = [(s.mark, .onHeader name value)] ∧ s' = ⟨p + 1, .lineStart true⟩ := by
  obtain ⟨m, phase⟩ := s
  rcases hl : lineStep p phase c with ⟨o₁, phase' | e | v⟩
  · simp only [headerStep, hl] at h
    cases h
    exact Or.inl ⟨o₁, phase', rfl, rfl, rfl⟩
  · simp only [headerStep, hl] at h
    cases h
  · cases v with
    | closing =>
      simp only [headerStep, hl] at h
      cases h
    | header name value =>
      simp only [headerStep, hl] at h
      cases h
      exact Or.inr ⟨o₁, name, value, rfl, rfl, rfl⟩

/-- An error in the header section is reported at the start of its line. -/
theorem headerStep_error {s : HeaderState} (h : headerStep p s c = (o, .halt (.error (e, m)))) :
    m = s.mark ∧ o = [] ∧ ∃ o₁, lineStep p s.phase c = (o₁, .halt (.error e)) := by
  obtain ⟨k, phase⟩ := s
  rcases hl : lineStep p phase c with ⟨o₁, phase' | e' | v⟩
  · simp only [headerStep, hl] at h
    cases h
  · simp only [headerStep, hl] at h
    cases h
    exact ⟨rfl, rfl, o₁, rfl⟩
  · cases v <;> simp only [headerStep, hl] at h <;> cases h

/-- The section ends with an empty line. -/
theorem headerStep_ok {s : HeaderState} {n : Nat} (h : headerStep p s c = (o, .halt (.ok n))) :
    n = p + 1 ∧ o = [] ∧ ∃ o₁, lineStep p s.phase c = (o₁, .halt (.ok .closing)) := by
  obtain ⟨k, phase⟩ := s
  rcases hl : lineStep p phase c with ⟨o₁, phase' | e' | v⟩
  · simp only [headerStep, hl] at h
    cases h
  · simp only [headerStep, hl] at h
    cases h
  · cases v with
    | closing =>
      simp only [headerStep, hl] at h
      cases h
      exact ⟨rfl, rfl, o₁, rfl⟩
    | header name value =>
      simp only [headerStep, hl] at h
      cases h

end

/-! ## Runs, part by part -/

/-- `headerStep` line by line. -/
theorem run_headerStep (p m : Nat) (phase : HeaderPhase) (b : List Byte) :
    run headerStep p ⟨m, phase⟩ b =
      match run lineStep p phase b with
      | (_, .live phase') => ([], .live ⟨m, phase'⟩)
      | (_, .halted (.error e) rest) => ([], .halted (.error (e, m)) rest)
      | (_, .halted (.ok .closing) rest) => ([], .halted (.ok (p + (b.length - rest.length))) rest)
      | (_, .halted (.ok (.header name value)) rest) =>
        prepend [(m, .onHeader name value)] (run headerStep (p + (b.length - rest.length))
          ⟨p + (b.length - rest.length), .lineStart true⟩ rest) := by
  induction b generalizing p phase with
  | nil => rfl
  | cons c cs ih =>
    have hone : p + ((c :: cs).length - cs.length) = p + 1 := by
      simp only [List.length_cons]
      omega
    cases hl : lineStep p phase c with
    | mk o n =>
      cases n with
      | more phase' =>
        have hs : headerStep p ⟨m, phase⟩ c = ([], .more ⟨m, phase'⟩) := by simp only [headerStep, hl]
        rw [run_more hs, run_more hl, prepend_nil, ih]
        cases hr : run lineStep (p + 1) phase' cs with
        | mk o' out =>
          cases out with
          | live phase'' => rfl
          | halted v rest =>
            obtain ⟨a, rfl, -⟩ := halted_split hr
            have hlen : p + 1 + ((a ++ rest).length - rest.length) =
                p + ((c :: (a ++ rest)).length - rest.length) := by
              simp only [List.length_append, List.length_cons]
              omega
            rcases v with e | v
            · rfl
            · cases v with
              | closing => simp only [prepend, hlen]
              | header name value => simp only [prepend, hlen]
      | halt v =>
        rcases v with e | v
        · have hs : headerStep p ⟨m, phase⟩ c = ([], .halt (.error (e, m))) := by simp only [headerStep, hl]
          rw [run_halt hs, run_halt hl]
        · cases v with
          | closing =>
            have hs : headerStep p ⟨m, phase⟩ c = ([], .halt (.ok (p + 1))) := by simp only [headerStep, hl]
            rw [run_halt hs, run_halt hl]
            simp only [hone]
          | header name value =>
            have hs : headerStep p ⟨m, phase⟩ c =
                ([(m, .onHeader name value)], .more ⟨p + 1, .lineStart true⟩) := by
              simp only [headerStep, hl]
            rw [run_more hs, run_halt hl]
            simp only [hone]

/-- A run of the start line, seen with the mark it is delivered at. -/
theorem run_leadStep_line (l : StartLine) (p m : Nat) (s : l.State) (b : List Byte) :
    run (leadStep l) p (.line m s) b =
      ((run l.step p s b).1.map (Prod.mk m),
        match (run l.step p s b).2 with
        | .live s' => .live (.line m s')
        | .halted (.ok u) rest => .halted (.ok u) rest
        | .halted (.error e) rest => .halted (.error (e, m)) rest) := by
  induction b generalizing p s with
  | nil => rfl
  | cons c cs ih =>
    cases hl : l.step p s c with
    | mk o n =>
      rcases n with s' | e | u
      · have hs : leadStep l p (.line m s) c = (o.map (Prod.mk m), .more (.line m s')) := by
          simp only [leadStep, hl, tagged]
        rw [run_more hs, run_more hl, ih]
        simp only [prepend, List.map_append]
      · have hs : leadStep l p (.line m s) c = (o.map (Prod.mk m), .halt (.error (e, m))) := by
          simp only [leadStep, hl, tagged]
        rw [run_halt hs, run_halt hl]
      · have hs : leadStep l p (.line m s) c = (o.map (Prod.mk m), .halt (.ok u)) := by
          simp only [leadStep, hl, tagged]
        rw [run_halt hs, run_halt hl]

/-- **From the start line on**: its callbacks, then the header lines if it was read to its end. -/
theorem run_headStep_line (l : StartLine) (p m : Nat) (s : l.State) (b : List Byte) :
    run (headStep l) p (.inl (.line m s)) b =
      prepend ((run l.step p s b).1.map (Prod.mk m))
        (match (run l.step p s b).2 with
        | .live s' => ([], .live (.inl (.line m s')))
        | .halted (.ok _) rest =>
          inSnd (run headerStep (p + (b.length - rest.length)) (headerStart (p + (b.length - rest.length))) rest)
        | .halted (.error e) rest => ([], .halted (.error (e, m)) rest)) := by
  unfold headStep
  rw [run_seq, run_leadStep_line]
  rcases run l.step p s b with ⟨o, s' | ⟨e | u, rest⟩⟩
  · simp only [prepend, List.append_nil]
  · simp only [prepend, List.append_nil]
  · rfl

/-! ## `partial` is never a verdict -/

theorem stepName_decided (acc : Slice) (c : Byte) (e : ParserError) (h : (stepName acc c).2 = .halt (.error e)) :
    e ≠ .partialData := by
  simp only [stepName] at h
  repeat' split at h
  all_goals cases h
  all_goals decide

theorem stepValue_decided (name : Option Slice) (acc : Slice) (c : Byte) (e : ParserError)
    (h : (stepValue name acc c).2 = .halt (.error e)) : e ≠ .partialData := by
  simp only [stepValue] at h
  repeat' split at h
  all_goals cases h
  decide

theorem lineStep_decided (p : Nat) (phase : HeaderPhase) (c : Byte) (e : ParserError)
    (h : (lineStep p phase c).2 = .halt (.error e)) : e ≠ .partialData := by
  cases phase with
  | lineStart hasHeader =>
    simp only [lineStep] at h
    repeat' split at h
    · cases h
    · cases h
    · exact stepValue_decided _ _ _ _ h
    · exact stepName_decided _ _ _ h
  | closingCR =>
    simp only [lineStep] at h
    split at h <;> cases h
    decide
  | name acc => exact stepName_decided _ _ _ h
  | blanks nm =>
    simp only [lineStep] at h
    split at h
    · cases h
    · exact stepValue_decided _ _ _ _ h
  | value nm acc => exact stepValue_decided _ _ _ _ h
  | valueCR nm acc =>
    simp only [lineStep] at h
    split at h <;> cases h
    decide

theorem leadStep_decided {l : StartLine} {p m : Nat} {s : Lead l.State} {c : Byte} {e : ParserError}
    {o : List (Nat × Event Slice)} (h : leadStep l p s c = (o, .halt (.error (e, m)))) : e ≠ .partialData := by
  rcases leadStep_cases h with ⟨-, -, -, hn⟩ | ⟨-, -, -, hn⟩ | ⟨-, -, -, hn⟩ | ⟨k, x, -, ht⟩
  · cases hn
  · cases hn
  · cases hn
    decide
  · obtain ⟨o₁, hl, -, -⟩ := tagged_error ht
    exact l.decided p x c e (by rw [hl])

theorem headerStep_decided {p m : Nat} {s : HeaderState} {c : Byte} {e : ParserError} {o : List (Nat × Event Slice)}
    (h : headerStep p s c = (o, .halt (.error (e, m)))) : e ≠ .partialData := by
  obtain ⟨-, -, o₁, hl⟩ := headerStep_error h
  exact lineStep_decided p s.phase c e (by rw [hl])

/-- **`partial` means that the buffer was read to its end without a verdict.** -/
theorem read_decided {l : StartLine} {b rest : List Byte} {lastPos m : Nat} {e : ParserError}
    {o : List (Nat × Event Slice)} (h : read l b lastPos = (o, .halted (.error (e, m)) rest)) : e ≠ .partialData := by
  have hstep : ∀ p (s : HeadState l) c v, (headStep l p s c).2 = .halt v →
      ∀ e m, v = .error (e, m) → e ≠ .partialData := by
    rintro p s c v hv e m rfl
    have hs : headStep l p s c = ((headStep l p s c).1, .halt (.error (e, m))) := Prod.ext rfl hv
    cases s with
    | inl s =>
      obtain ⟨e', hl, he⟩ := seq_inl_halt hs
      cases he
      exact leadStep_decided hl
    | inr s => exact headerStep_decided (seq_inr_halt hs)
  unfold read at h
  split at h
  · exact run_verdict hstep h e m rfl
  · exact run_verdict hstep h e m rfl

end Httparsed
